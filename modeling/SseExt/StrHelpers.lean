import SseExt.Lib.Numeral

/-!
# `StrHelpers::SplitString`

A text is split at a delimiter and every item is read as a number by a string stream. `getline`
wants the delimiter, a `char`, and the stream to have one character type, so `Tc` is `char`. The
`try` around the conversion has nothing to catch: a stream reports a failure by its state.

**Theorem (`splitString_iff`).** Exactly the numbers are appended if every item is a number, items
that are skipped for being empty apart. Any other item is appended too, as what a failed conversion
stores.
-/

namespace SseExt.StrHelpers

open Numeral

/-- An integer type as the target of a stream: how it stores a number that it can store, and what
is stored for one that it cannot. -/
structure Target (To : Type*) where
  store : ℤ → Option To
  clamp : ℤ → To
  zero : To

namespace Target

/-- A signed type of so many bits. -/
def signed (bits : ℕ) : Target ℤ where
  store n := if -2 ^ (bits - 1) ≤ n ∧ n < 2 ^ (bits - 1) then some n else none
  clamp n := if n < 0 then -2 ^ (bits - 1) else 2 ^ (bits - 1) - 1
  zero := 0

/-- An unsigned type of so many bits; a number with a minus sign is negated in the type. -/
def unsigned (bits : ℕ) : Target ℤ where
  store n := if 0 ≤ n ∧ n < 2 ^ bits then some n
    else if -2 ^ bits < n ∧ n < 0 then some (n + 2 ^ bits) else none
  clamp _ := 2 ^ bits - 1
  zero := 0

end Target

variable {To : Type*}

/-- The number that `convss >> iv` reads from an item, if it can. -/
def convert (T : Target To) (hex : Bool) (item : List UInt8) : Option To :=
  match scanInt (if hex then scanHex else scanNat 10) item with
  | none => none
  | some (n, _) => T.store n

/-- `iv` after `convss >> iv`. -/
def extract (T : Target To) (hex : Bool) (item : List UInt8) : To :=
  match scanInt (if hex then scanHex else scanNat 10) item with
  | none => T.zero
  | some (n, _) => (T.store n).getD (T.clamp n)

/-- `std::getline`: the item and what is left, if there was anything. -/
def getline (delim : UInt8) : List UInt8 → Option (List UInt8 × List UInt8)
  | [] => none
  | c :: cs => some ((c :: cs).takeWhile (· != delim), ((c :: cs).dropWhile (· != delim)).tail)

theorem length_of_getline {delim : UInt8} {s item rest : List UInt8}
    (h : getline delim s = some (item, rest)) : rest.length < s.length := by
  cases s with
  | nil => cases h
  | cons c cs =>
    simp only [getline, Option.some.injEq, Prod.mk.injEq] at h
    have hle := (List.dropWhile_suffix (· != delim) (l := c :: cs)).length_le
    rw [← h.2, List.length_tail]
    rw [List.length_cons] at hle ⊢
    omega

/-- What the calls of `getline` in the loop read. -/
def items (delim : UInt8) (s : List UInt8) : List (List UInt8) :=
  match _h : getline delim s with
  | none => []
  | some (item, rest) => item :: items delim rest
termination_by s.length
decreasing_by exact length_of_getline _h

/-- `a_skipEmpty && item.empty()` -/
def skips (skipEmpty : Bool) (item : List UInt8) : Bool := skipEmpty && item.isEmpty

/-- A round of the loop. -/
def splitItem (T : Target To) (skipEmpty hex : Bool) (out : List To) (item : List UInt8) :
    List To :=
  if skips skipEmpty item then out else out ++ [extract T hex item]

/-- `SplitString` -/
def splitString (T : Target To) (text : List UInt8) (delim : UInt8) (out : List To)
    (skipEmpty hex : Bool) : List To :=
  (items delim text).foldl (splitItem T skipEmpty hex) out

variable {T : Target To} {skipEmpty hex : Bool} {delim : UInt8}

/-! ## The items -/

theorem items_of_getline {s item rest : List UInt8} (h : getline delim s = some (item, rest)) :
    items delim s = item :: items delim rest := by
  rw [items]
  split
  · rename_i hnone
    rw [h] at hnone
    cases hnone
  · rename_i hsome
    rw [h] at hsome
    cases hsome
    rfl

/-- What `getline` reads is the first part of the text, and the rest is split further. -/
theorem splitOn_of_getline {s item rest : List UInt8} (h : getline delim s = some (item, rest)) :
    s.splitOn delim = item :: rest.splitOn delim ∨ (s.splitOn delim = [item] ∧ rest = []) := by
  obtain ⟨c, cs, rfl⟩ := List.exists_cons_of_ne_nil (l := s) (by rintro rfl; cases h)
  simp only [getline, Option.some.injEq, Prod.mk.injEq] at h
  obtain ⟨hitem, hrest⟩ := h
  have hsplit := List.takeWhile_append_dropWhile (p := (· != delim)) (l := c :: cs)
  rw [hitem] at hsplit
  have hnot : delim ∉ item := fun hmem => by
    have hne := List.mem_takeWhile_imp (hitem ▸ hmem)
    simp at hne
  cases hdrop : (c :: cs).dropWhile (· != delim) with
  | nil =>
    rw [hdrop, List.append_nil] at hsplit
    rw [hdrop] at hrest
    refine .inr ⟨?_, hrest.symm⟩
    rw [← hsplit, List.splitOn_eq_singleton hnot]
  | cons d ds =>
    have hd := List.head?_dropWhile_not (· != delim) (c :: cs)
    rw [hdrop] at hsplit hrest hd
    obtain rfl : d = delim := by simpa using hd
    obtain rfl : ds = rest := hrest
    refine .inl ?_
    rw [← hsplit, List.splitOn_append_cons_self_of_not_mem hnot]

/-- Items are what stands between delimiters; a last one that is empty is not read. -/
theorem filterMap_items {α : Type*} {f : List UInt8 → Option α} (hf : f [] = none)
    (s : List UInt8) : (items delim s).filterMap f = (s.splitOn delim).filterMap f := by
  induction s using items.induct delim with
  | case1 s h =>
    cases s with
    | nil => simp [items, getline, hf]
    | cons c cs => cases h
  | case2 s item rest h ih =>
    rw [items_of_getline h]
    rcases splitOn_of_getline h with hsplit | ⟨hsplit, rfl⟩
    · rw [hsplit, List.filterMap_cons, List.filterMap_cons, ih]
    · have hnil : items delim [] = [] := by simp [items, getline]
      rw [hsplit, hnil]

/-! ## The numbers -/

theorem convert_nil (hex : Bool) : convert T hex [] = none := by
  cases hex <;> rfl

theorem extract_eq {v : To} {item : List UInt8} (h : convert T hex item = some v) :
    extract T hex item = v := by
  unfold convert at h
  unfold extract
  cases hscan : scanInt (if hex then scanHex else scanNat 10) item with
  | none => simp [hscan] at h
  | some r =>
    simp only [hscan] at h ⊢
    rw [h, Option.getD_some]

/-- The loop appends something for every item that is not skipped. -/
theorem foldl_splitItem (out : List To) (l : List (List UInt8)) :
    l.foldl (splitItem T skipEmpty hex) out =
      out ++ (l.filter fun item => !skips skipEmpty item).map (extract T hex) := by
  induction l generalizing out with
  | nil => simp
  | cons item l ih =>
    rw [List.foldl_cons, ih, splitItem, List.filter_cons]
    cases skips skipEmpty item <;> simp

theorem skips_iff {item : List UInt8} : skips skipEmpty item ↔ skipEmpty ∧ item = [] := by
  rw [skips, Bool.and_eq_true, List.isEmpty_iff]

/-- What is skipped is no number. -/
theorem filterMap_filter_skips (skipEmpty : Bool) (l : List (List UInt8)) :
    (l.filter fun item => !skips skipEmpty item).filterMap (convert T hex) =
      l.filterMap (convert T hex) := by
  induction l with
  | nil => rfl
  | cons item l ih =>
    rw [List.filter_cons, List.filterMap_cons]
    cases hskip : skips skipEmpty item with
    | true =>
      rw [(skips_iff.1 hskip).2, convert_nil]
      exact ih
    | false =>
      simp only [Bool.not_false, if_true, List.filterMap_cons]
      rw [ih]

theorem map_extract_iff {l : List (List UInt8)} :
    l.map (extract T hex) = l.filterMap (convert T hex) ↔
      ∀ item ∈ l, (convert T hex item).isSome := by
  induction l with
  | nil => simp
  | cons item l ih =>
    rw [List.map_cons, List.filterMap_cons, List.forall_mem_cons]
    cases hitem : convert T hex item with
    | some v => simp [extract_eq hitem, ih]
    | none =>
      -- One value too many.
      have hle := List.length_filterMap_le (convert T hex) l
      refine iff_of_false (fun h => ?_) (by simp)
      have hlen := congrArg List.length h
      rw [List.length_cons, List.length_map] at hlen
      simp only at hlen
      omega

/-- **The numbers are appended** exactly if every item is one, or is empty and skipped. -/
theorem splitString_iff (T : Target To) (text : List UInt8) (delim : UInt8) (out : List To)
    (skipEmpty hex : Bool) :
    splitString T text delim out skipEmpty hex =
        out ++ (text.splitOn delim).filterMap (convert T hex) ↔
      ∀ item ∈ items delim text, (skipEmpty ∧ item = []) ∨ (convert T hex item).isSome := by
  rw [splitString, foldl_splitItem, List.append_cancel_left_eq,
    ← filterMap_items (convert_nil hex), ← filterMap_filter_skips skipEmpty,
    map_extract_iff]
  constructor
  · intro h item hitem
    cases hskip : skips skipEmpty item with
    | true => exact .inl (skips_iff.1 hskip)
    | false => exact .inr (h item (List.mem_filter.2 ⟨hitem, by rw [hskip]; rfl⟩))
  · intro h item hitem
    obtain ⟨hmem, hkept⟩ := List.mem_filter.1 hitem
    refine (h item hmem).resolve_left fun hskip => ?_
    rw [skips_iff.2 hskip] at hkept
    cases hkept

/-- `1,x,2` as `int`s. -/
theorem letter_appended :
    splitString (.signed 32) [0x31, 0x2C, 0x78, 0x2C, 0x32] 0x2C [] false false = [1, 0, 2] ∧
      ([0x31, 0x2C, 0x78, 0x2C, 0x32].splitOn 0x2C).filterMap (convert (.signed 32) false) =
        [1, 2] := by
  constructor
  · simp [splitString, items, getline, splitItem]
    decide
  · decide

end SseExt.StrHelpers
