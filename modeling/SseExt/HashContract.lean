import SseExt.Lib.LittleEndian
import SseExt.StringCache.Key

/-!
# The case-insensitive hash containers

`iunordered_map` and `iunordered_set` hash with `icase_fnv1a` and compare with `iequal_to`. They
are only defined when equal keys have equal hashes. `iequal_to` compares lengths and C strings, so
it stops at the first NUL; the hashes read every byte.

**Theorem (`law_iff`).** A key obeys the law against every other key exactly when no NUL byte of
its text is followed by another byte. This is the same for both hashes and for pairs.

The two hashes differ in the order of multiplication and exclusive or; both steps are injective
in the byte read (`Fnv.injective`), so two texts that differ in their last byte alone never hash
alike, which gives the converse.
-/

namespace SseExt

/-! ## The hashes -/

/-- A round of a hash: the hash so far, the word read, the next hash. -/
abbrev Fnv := UInt64 → UInt64 → UInt64

/-- `hash *= fnv_prime; hash ^= word` -/
def fnv1 : Fnv := fun hash word => hash * fnvPrime ^^^ word

/-- `hash ^= word; hash *= fnv_prime` -/
def fnv1a : Fnv := fun hash word => (hash ^^^ word) * fnvPrime

/-- `_append_hash_bytes_fnv1` and `_append_hash_bytes_fnv1a`. -/
def appendHashBytes (round : Fnv) (hash : UInt64) (bytes : List UInt8) : UInt64 :=
  bytes.foldl (fun hash b => round hash b.toUInt64) hash

/-- `static_cast<std::size_t>(toupper(e))`: the folded byte is a signed `char`. -/
def upperWord (e : UInt8) : UInt64 := (toupper e.toInt8).toInt64.toUInt64

/-- The loop over a text. -/
def appendText (round : Fnv) (hash : UInt64) (s : Bytes) : UInt64 :=
  s.foldl (fun hash e => round hash (upperWord e)) hash

/-- A pair of an integer of `size` bytes and a string. -/
abbrev IntText (size : ℕ) := BitVec (8 * size) × Bytes

/-- The bytes of the first component in memory. -/
def IntText.bytes {size : ℕ} (p : IntText size) : List UInt8 := leBytes size p.1.toNat

def icaseFnv1 (s : Bytes) : UInt64 := appendText fnv1 fnvOffsetBasis s

def icaseFnv1a (s : Bytes) : UInt64 := appendText fnv1a fnvOffsetBasis s

def icaseFnv1Pair {size : ℕ} (p : IntText size) : UInt64 :=
  appendText fnv1 (appendHashBytes fnv1 fnvOffsetBasis p.bytes) p.2

def icaseFnv1aPair {size : ℕ} (p : IntText size) : UInt64 :=
  appendText fnv1a (appendHashBytes fnv1a fnvOffsetBasis p.bytes) p.2

/-- The string cache uses the same hash. -/
theorem computeHash_eq (s : Bytes) : computeHash s = icaseFnv1a s := rfl

/-! ## `iequal_to` -/

def iequalTo (a b : Bytes) : Bool :=
  if a.length ≠ b.length then false else stricmp (cStr a) (cStr b) = some 0

def iequalToPair {size : ℕ} (p q : IntText size) : Bool :=
  if p.1 ≠ q.1 ∨ p.2.length ≠ q.2.length then false
  else stricmp (cStr p.2) (cStr q.2) = some 0

variable {a b : Bytes} {size : ℕ} {p q : IntText size}

theorem iequalTo_iff : iequalTo a b ↔
    a.length = b.length ∧ foldStr (cPart a) = foldStr (cPart b) := by
  unfold iequalTo
  split_ifs with h
  · simp [h]
  · simp only [decide_eq_true_eq, stricmp_cStr_eq_zero, not_not.1 h, true_and]

theorem iequalToPair_iff : iequalToPair p q ↔ p.1 = q.1 ∧ iequalTo p.2 q.2 := by
  unfold iequalToPair iequalTo
  by_cases hint : p.1 = q.1 <;> by_cases hlen : p.2.length = q.2.length <;> simp [hint, hlen]

@[simp] theorem iequalTo_refl (a : Bytes) : iequalTo a a := iequalTo_iff.2 ⟨rfl, rfl⟩

theorem iequalTo_symm (h : iequalTo a b) : iequalTo b a := by
  obtain ⟨hlen, hfold⟩ := iequalTo_iff.1 h
  exact iequalTo_iff.2 ⟨hlen.symm, hfold.symm⟩

theorem iequalTo_trans {c : Bytes} (hab : iequalTo a b) (hbc : iequalTo b c) : iequalTo a c := by
  obtain ⟨hlen, hfold⟩ := iequalTo_iff.1 hab
  obtain ⟨hlen', hfold'⟩ := iequalTo_iff.1 hbc
  exact iequalTo_iff.2 ⟨hlen.trans hlen', hfold.trans hfold'⟩

/-- Between a NUL-free string and any other, `iequal_to` is equality after folding. -/
theorem NulFree.iequalTo_iff_foldStr (ha : NulFree a) : iequalTo a b ↔ foldStr a = foldStr b := by
  rw [iequalTo_iff]
  constructor
  · intro h
    exact foldStr_eq_of_cPart ha h.1 h.2
  · intro h
    rw [ha.cPart_eq, (ha.of_foldStr h.symm).cPart_eq]
    exact ⟨length_eq_of_foldStr h, h⟩

/-! ## Texts that fold alike -/

theorem appendText_eq_fold (round : Fnv) (hash : UInt64) (s : Bytes) :
    appendText round hash s =
      (foldStr s).foldl (fun hash c => round hash c.toInt8.toInt64.toUInt64) hash := by
  simp [appendText, upperWord, foldStr, List.foldl_map, toupper]

theorem appendText_congr (round : Fnv) (hash : UInt64) (h : foldStr a = foldStr b) :
    appendText round hash a = appendText round hash b := by
  rw [appendText_eq_fold, appendText_eq_fold, h]

/-- What follows the first NUL-free part of a string is nothing or begins with a NUL. -/
theorem eq_cPart_append (s : Bytes) : s = cPart s ∨ ∃ tail, s = cPart s ++ 0 :: tail := by
  have hsplit : cPart s ++ s.dropWhile (· ≠ 0) = s := List.takeWhile_append_dropWhile
  cases htail : s.dropWhile (· ≠ 0) with
  | nil =>
    rw [htail, List.append_nil] at hsplit
    exact .inl hsplit.symm
  | cons c tail =>
    have hhead := List.head?_dropWhile_not (· ≠ 0) s
    rw [htail] at hhead hsplit
    have hc : c = 0 := by simpa using hhead
    rw [hc] at hsplit
    exact .inr ⟨tail, hsplit.symm⟩

theorem cPart_append_zero {s : Bytes} (hs : NulFree s) (tail : Bytes) :
    cPart (s ++ 0 :: tail) = s := by
  have hpos : ∀ c ∈ s, decide (c ≠ 0) = true := fun c hc => by simpa using hs c hc
  unfold cPart
  rw [List.takeWhile_append_of_pos hpos]
  simp

/-- A string whose first NUL is its last byte, if it has one, is compared to the end. -/
theorem foldStr_of_iequalTo (ha : NulFree a.dropLast) (h : iequalTo a b) :
    foldStr a = foldStr b := by
  obtain ⟨hlen, hfold⟩ := iequalTo_iff.1 h
  have hpart := length_eq_of_foldStr hfold
  rcases eq_cPart_append a with hfree | ⟨tail, hnul⟩
  · have hfree' : NulFree a := hfree ▸ nulFree_cPart a
    exact foldStr_eq_of_cPart hfree' hlen hfold
  · have htail : tail = [] := by
      by_contra hne
      -- A NUL with a byte after it is among all bytes but the last.
      have hmem : (0 : UInt8) ∈ a.dropLast := by
        rw [hnul, List.dropLast_append_of_ne_nil (List.cons_ne_nil _ _),
          List.dropLast_cons_of_ne_nil hne]
        simp
      exact ha 0 hmem rfl
    have hlast : a = cPart a ++ [0] := by rwa [htail] at hnul
    have hlen' := congrArg List.length hlast
    rw [List.length_append, List.length_singleton] at hlen'
    rcases eq_cPart_append b with hb | ⟨tail', hb⟩
    · have hblen := congrArg List.length hb
      omega
    · have hblen := congrArg List.length hb
      rw [List.length_append, List.length_cons] at hblen
      have htail' : tail' = [] := List.eq_nil_of_length_eq_zero (by omega)
      rw [hlast, hb, htail']
      simp only [foldStr, List.map_append]
      exact congrArg (· ++ _) hfold

theorem NulFree.dropLast {s : Bytes} (h : NulFree s) : NulFree s.dropLast :=
  fun c hc => h c ((List.dropLast_sublist s).mem hc)

/-- Such a string obeys the law: what is equal to it has its hashes. -/
theorem icaseFnv_congr (ha : NulFree a.dropLast) (h : iequalTo a b) :
    icaseFnv1a a = icaseFnv1a b ∧ icaseFnv1 a = icaseFnv1 b := by
  have hfold := foldStr_of_iequalTo ha h
  exact ⟨appendText_congr _ _ hfold, appendText_congr _ _ hfold⟩

/-! ## Texts that differ at the end -/

/-- The inverse of `fnv_prime` modulo `2 ^ 64`. -/
def fnvPrimeInv : UInt64 := 0xce965057aff6957b

theorem fnvPrime_mul_inv (x : UInt64) : x * fnvPrime * fnvPrimeInv = x := by
  have h : fnvPrime * fnvPrimeInv = 1 := by decide
  rw [UInt64.mul_assoc, h, UInt64.mul_one]

theorem fnv1a_injective (hash : UInt64) : Function.Injective (fnv1a hash) := by
  intro x y h
  have hxor : hash ^^^ x = hash ^^^ y := by
    rw [← fnvPrime_mul_inv (hash ^^^ x), ← fnvPrime_mul_inv (hash ^^^ y)]
    exact congrArg (· * fnvPrimeInv) h
  exact (UInt64.xor_right_inj _).1 hxor

/-- The sign extension loses nothing. -/
theorem upperWord_inj {c d : UInt8} (h : upperWord c = upperWord d) :
    toupperAsciiL1s c = toupperAsciiL1s d := by
  have hword := congrArg (fun w : UInt64 => w.toInt64.toInt8) h
  simp only [upperWord, Int64.toInt64_toUInt64, Int8.toInt8_toInt64, toupper] at hword
  simpa using congrArg Int8.toUInt8 hword

/-- **The last byte counts.** -/
theorem appendText_last {round : Fnv} (hround : ∀ hash, Function.Injective (round hash))
    {hash : UInt64} {s : Bytes} {c d : UInt8}
    (h : appendText round hash (s ++ [c]) = appendText round hash (s ++ [d])) :
    toupperAsciiL1s c = toupperAsciiL1s d := by
  simp only [appendText, List.foldl_append, List.foldl_cons, List.foldl_nil] at h
  exact upperWord_inj (hround _ h)

/-- A string with a byte after a NUL is equal to one that differs in its last byte. -/
theorem exists_iequalTo (ha : ¬ NulFree a.dropLast) :
    ∃ s c d, a = s ++ [c] ∧ toupperAsciiL1s c ≠ toupperAsciiL1s d ∧ iequalTo a (s ++ [d]) := by
  have hne : a ≠ [] := by
    intro h
    subst h
    exact ha fun _ hc => nomatch hc
  have hlast : a = a.dropLast ++ [a.getLast hne] := (List.dropLast_concat_getLast hne).symm
  obtain ⟨d, hd⟩ : ∃ d, toupperAsciiL1s (a.getLast hne) ≠ toupperAsciiL1s d := by
    by_cases h0 : toupperAsciiL1s (a.getLast hne) = 0
    · exact ⟨1, by rw [h0]; decide⟩
    · exact ⟨0, h0⟩
  refine ⟨a.dropLast, a.getLast hne, d, hlast, hd, ?_⟩
  -- Both strings have the same part before the NUL.
  have hpart : ∀ tail, cPart (a.dropLast ++ tail) = cPart a.dropLast := by
    intro tail
    rcases eq_cPart_append a.dropLast with hfree | ⟨rest, hnul⟩
    · exact absurd (hfree ▸ nulFree_cPart a.dropLast) ha
    · have hcat : a.dropLast ++ tail = cPart a.dropLast ++ 0 :: (rest ++ tail) := by
        conv_lhs => rw [hnul]
        rw [List.append_assoc, List.cons_append]
      rw [hcat, cPart_append_zero (nulFree_cPart _)]
  rw [iequalTo_iff]
  constructor
  · conv_lhs => rw [hlast]
    simp
  · conv_lhs => rw [hlast]
    rw [hpart, hpart]

/-! ## The law -/

/-- **When equal keys have equal hashes.** For a string `a`, and for a pair with `a` second, the
law of the containers holds against every other key exactly when no NUL byte of `a` is followed
by another byte. -/
theorem law_iff (a : Bytes) (size : ℕ) (x : BitVec (8 * size)) :
    ((∀ b, iequalTo a b → icaseFnv1a a = icaseFnv1a b ∧ icaseFnv1 a = icaseFnv1 b) ↔
        NulFree a.dropLast) ∧
      ((∀ q : IntText size, iequalToPair (x, a) q →
          icaseFnv1aPair (x, a) = icaseFnv1aPair q ∧ icaseFnv1Pair (x, a) = icaseFnv1Pair q) ↔
        NulFree a.dropLast) := by
  refine ⟨⟨fun h => ?_, fun ha b h => icaseFnv_congr ha h⟩, fun h => ?_, fun ha q h => ?_⟩
  · by_contra ha
    obtain ⟨s, c, d, rfl, hcd, heq⟩ := exists_iequalTo ha
    exact hcd (appendText_last fnv1a_injective (h _ heq).1)
  · by_contra ha
    obtain ⟨s, c, d, rfl, hcd, heq⟩ := exists_iequalTo ha
    have hpair := h (x, s ++ [d]) (iequalToPair_iff.2 ⟨rfl, heq⟩)
    exact hcd (appendText_last fnv1a_injective hpair.1)
  · obtain ⟨hint, heq⟩ := iequalToPair_iff.1 h
    obtain ⟨y, b⟩ := q
    obtain rfl : x = y := hint
    have hfold := foldStr_of_iequalTo ha heq
    exact ⟨appendText_congr _ _ hfold, appendText_congr _ _ hfold⟩

/-- `"\0a"` and `"\0b"` are equal keys with different hashes. -/
theorem law_broken : iequalTo [0, 0x61] [0, 0x62] ∧
    icaseFnv1a [0, 0x61] ≠ icaseFnv1a [0, 0x62] ∧ icaseFnv1 [0, 0x61] ≠ icaseFnv1 [0, 0x62] := by
  decide

end SseExt
