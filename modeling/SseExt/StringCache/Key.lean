import SseExt.Hash

/-!
# `icase_key`: the entries of the string cache

An entry is a text, its hash and a reference counter. Two entries are equal when hash, length
and folded C text agree. The hash folds with the same table, so the hash test is redundant
between texts that fold alike (`computeHash_congr`), and equality of NUL-free texts is equality
after folding (`IcaseKey.eq_iff_foldStr`).
-/

namespace SseExt

/-! ## The hash -/

/-- The 64-bit FNV-1 constants. -/
def fnvPrime : UInt64 := 1099511628211
def fnvOffsetBasis : UInt64 := 14695981039346656037

/-- `icase_key::compute_hash`. The folded byte is a signed `char`, so the conversion to
`std::size_t` extends its sign. -/
def computeHash (value : Bytes) : UInt64 :=
  value.foldl (fun hash e => (hash ^^^ (toupper e.toInt8).toInt64.toUInt64) * fnvPrime)
    fnvOffsetBasis

theorem computeHash_eq_fold (value : Bytes) :
    computeHash value = (foldStr value).foldl
      (fun hash c => (hash ^^^ c.toInt8.toInt64.toUInt64) * fnvPrime) fnvOffsetBasis := by
  simp [computeHash, foldStr, List.foldl_map, toupper]

/-- Texts that fold alike hash alike. -/
theorem computeHash_congr {s t : Bytes} (h : foldStr s = foldStr t) :
    computeHash s = computeHash t := by
  rw [computeHash_eq_fold, computeHash_eq_fold, h]

/-! ## Entries -/

/-- An entry of the pool. The counter is a 64-bit atomic in the source; one handle takes eight
bytes, so it cannot wrap. -/
structure IcaseKey where
  hash : UInt64
  value : Bytes
  refcount : ℕ := 0
deriving DecidableEq

namespace IcaseKey

/-- `operator==`. -/
def eq (lhs rhs : IcaseKey) : Bool :=
  if lhs.hash ≠ rhs.hash then false
  else if lhs.value.length ≠ rhs.value.length then false
  else stricmp (cStr lhs.value) (cStr rhs.value) = some 0

/-- The key `insert` searches with. -/
def ofText (s : Bytes) : IcaseKey := ⟨computeHash s, s, 0⟩

variable {a b c : IcaseKey}

theorem eq_iff : a.eq b ↔ a.hash = b.hash ∧ a.value.length = b.value.length ∧
    foldStr (cPart a.value) = foldStr (cPart b.value) := by
  unfold eq
  split_ifs with h₁ h₂
  · simp [h₁]
  · simp [h₂]
  · simp only [decide_eq_true_eq, stricmp_cStr_eq_zero, not_not.1 h₁, not_not.1 h₂, true_and]

@[simp] theorem eq_refl (a : IcaseKey) : a.eq a := eq_iff.2 ⟨rfl, rfl, rfl⟩

theorem eq_symm (h : a.eq b) : b.eq a := by
  obtain ⟨h₁, h₂, h₃⟩ := eq_iff.1 h
  exact eq_iff.2 ⟨h₁.symm, h₂.symm, h₃.symm⟩

theorem eq_trans (hab : a.eq b) (hbc : b.eq c) : a.eq c := by
  obtain ⟨h₁, h₂, h₃⟩ := eq_iff.1 hab
  obtain ⟨h₁', h₂', h₃'⟩ := eq_iff.1 hbc
  exact eq_iff.2 ⟨h₁.trans h₁', h₂.trans h₂', h₃.trans h₃'⟩

/-- Equality looks at hash and text only. -/
theorem eq_congr {a' b' : IcaseKey} (ha : a'.hash = a.hash ∧ a'.value = a.value)
    (hb : b'.hash = b.hash ∧ b'.value = b.value) : a'.eq b' = a.eq b := by
  simp only [eq, ha.1, ha.2, hb.1, hb.2]

/-- An entry with its own hash is equal to what the key of its text is equal to. -/
theorem eq_ofText_value (h : b.hash = computeHash b.value) : a.eq (ofText b.value) = a.eq b :=
  eq_congr ⟨rfl, rfl⟩ ⟨h.symm, rfl⟩

/-- **Case-insensitive identity.** A NUL-free text equals exactly the texts that fold alike:
same length, same bytes after folding. -/
theorem eq_iff_foldStr {s t : Bytes} (hs : NulFree s) :
    (ofText s).eq (ofText t) ↔ foldStr s = foldStr t := by
  rw [eq_iff]
  constructor
  · rintro ⟨-, hlen, hfold⟩
    exact foldStr_eq_of_cPart hs hlen hfold
  · intro h
    have ht : NulFree t := hs.of_foldStr h.symm
    refine ⟨computeHash_congr h, length_eq_of_foldStr h, ?_⟩
    change foldStr (cPart s) = foldStr (cPart t)
    rwa [hs.cPart_eq, ht.cPart_eq]

example : (ofText [0x61, 0xE9]).eq (ofText [0x41, 0xC9]) := by decide

end IcaseKey

end SseExt
