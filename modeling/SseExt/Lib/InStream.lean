import Mathlib.Data.List.Basic
import Mathlib.Tactic.Common

/-!
# Input streams whose failed reads go unnoticed

A stream over a finite file. A read past its end sets `fail` and leaves the missing bytes of the
target indeterminate: they come from `junk`, and so does every later byte. Nothing else happens,
so a reader that never looks at `fail` cannot tell.

`read_cases` says what one read of `n` bytes may have seen; `read_append`, `read_junk` and
`read_across` say which bytes it returns when the file, continued by the junk, starts with them.
-/

namespace SseExt

structure InStream where
  /-- What is left of the file. -/
  rest : List UInt8
  /-- `failbit` -/
  fail : Bool
  /-- The indeterminate bytes that failed reads leave behind. -/
  junk : ℕ → UInt8

namespace InStream

/-- The bytes a read can still get from the file. -/
def avail (s : InStream) : List UInt8 := if s.fail then [] else s.rest

/-- Read `n` bytes. -/
def read (n : ℕ) (s : InStream) : List UInt8 × InStream :=
  let missing := n - s.avail.length
  (s.avail.take n ++ (List.range missing).map s.junk,
    { rest := if s.fail then s.rest else s.rest.drop n
      fail := s.fail || decide (missing ≠ 0)
      junk := fun i => s.junk (i + missing) })

/-- Read one byte. -/
def get (s : InStream) : UInt8 × InStream :=
  let r := s.read 1
  (r.1.headD 0, r.2)

/-- `seekg(n, cur)`; the position may lie past the end. -/
def seekCur (s : InStream) (n : ℕ) : InStream :=
  if s.fail then s else { s with rest := s.rest.drop n }

variable {s : InStream}

@[simp] theorem seekCur_zero (s : InStream) : s.seekCur 0 = s := by
  simp [seekCur]

theorem seekCur_fail (h : s.fail = true) (n : ℕ) : s.seekCur n = s := by
  simp [seekCur, h]

@[simp] theorem length_read (n : ℕ) (s : InStream) : (read n s).1.length = n := by
  simp only [read, List.length_append, List.length_take, List.length_map, List.length_range]
  omega

@[simp] theorem read_zero (s : InStream) : read 0 s = ([], s) := by
  obtain ⟨rest, fail, junk⟩ := s
  simp [read]

/-- A failed stream returns junk and stays failed. -/
theorem read_of_fail (n : ℕ) (rest : List UInt8) (junk : ℕ → UInt8) :
    read n ⟨rest, true, junk⟩ =
      ((List.range n).map junk, ⟨rest, true, fun i => junk (i + n)⟩) := by
  simp [read, avail]

/-- A read that the file can serve. -/
theorem read_of_le {n : ℕ} {rest : List UInt8} (h : n ≤ rest.length) (junk : ℕ → UInt8) :
    read n ⟨rest, false, junk⟩ = (rest.take n, ⟨rest.drop n, false, junk⟩) := by
  simp [read, avail, Nat.sub_eq_zero_of_le h]

/-- A read past the end. -/
theorem read_of_lt {n : ℕ} {rest : List UInt8} (h : rest.length < n) (junk : ℕ → UInt8) :
    read n ⟨rest, false, junk⟩ =
      (rest ++ (List.range (n - rest.length)).map junk,
        ⟨[], true, fun i => junk (i + (n - rest.length))⟩) := by
  have hm : n - rest.length ≠ 0 := Nat.sub_ne_zero_of_lt h
  simp [read, avail, List.take_of_length_le (Nat.le_of_lt h), Nat.le_of_lt h, hm]

/-- **Reads compose.** -/
theorem read_add (m n : ℕ) (s : InStream) :
    read (m + n) s = ((read m s).1 ++ (read n (read m s).2).1, (read n (read m s).2).2) := by
  obtain ⟨rest, fail, junk⟩ := s
  have hjunk : ∀ a b, (List.range (a + b)).map junk =
      (List.range a).map junk ++ (List.range b).map fun i => junk (i + a) := by
    intro a b
    rw [List.range_add, List.map_append, List.map_map]
    refine congrArg _ (List.map_congr_left fun i _ => ?_)
    exact congrArg junk (Nat.add_comm a i)
  cases fail with
  | true =>
    simp only [read_of_fail, hjunk m n]
    refine congrArg _ (congrArg _ (funext fun i => congrArg junk ?_))
    omega
  | false =>
    rcases Nat.lt_or_ge rest.length m with hm | hm
    · have hsum : m + n - rest.length = m - rest.length + n := by omega
      rw [read_of_lt (show rest.length < m + n by omega), read_of_lt hm, read_of_fail, hsum,
        hjunk, List.append_assoc]
      refine congrArg _ (congrArg _ (funext fun i => congrArg junk ?_))
      omega
    · rw [read_of_le hm]
      have hlen : (rest.drop m).length = rest.length - m := List.length_drop
      rcases Nat.lt_or_ge rest.length (m + n) with hn | hn
      · have hsub : n - (rest.drop m).length = m + n - rest.length := by omega
        rw [read_of_lt hn, read_of_lt (show (rest.drop m).length < n by omega), hsub,
          ← List.append_assoc, List.take_append_drop]
      · rw [read_of_le hn, read_of_le (show n ≤ (rest.drop m).length by omega), List.take_add,
          List.drop_drop]

theorem read_succ (n : ℕ) (s : InStream) :
    read (n + 1) s = (s.get.1 :: (read n s.get.2).1, (read n s.get.2).2) := by
  obtain ⟨b, hb⟩ := List.length_eq_one_iff.1 (length_read 1 s)
  rw [Nat.add_comm, read_add]
  simp only [get, hb, List.headD_cons, List.singleton_append]

/-- **One read.** Either all bytes were in the file, or the file ran out before the last of them. -/
theorem read_cases (h : s.fail = false) (n : ℕ) :
    ((read n s).2.fail = false ∧ s.rest = (read n s).1 ++ (read n s).2.rest) ∨
      ((read n s).2.fail = true ∧ ∃ e, e ≠ [] ∧ (read n s).1 = s.rest ++ e) := by
  obtain ⟨rest, fail, junk⟩ := s
  obtain rfl : fail = false := h
  rcases Nat.lt_or_ge rest.length n with hn | hn
  · refine Or.inr ?_
    rw [read_of_lt hn]
    refine ⟨rfl, _, ?_, rfl⟩
    have hne : n - rest.length ≠ 0 := Nat.sub_ne_zero_of_lt hn
    simpa using hne
  · refine Or.inl ?_
    rw [read_of_le hn]
    exact ⟨rfl, (List.take_append_drop n rest).symm⟩

/-- Reading what is there. -/
theorem read_append (bs tail : List UInt8) (junk : ℕ → UInt8) :
    read bs.length ⟨bs ++ tail, false, junk⟩ = (bs, ⟨tail, false, junk⟩) := by
  rw [read_of_le (by rw [List.length_append]; exact Nat.le_add_right _ _), List.take_left,
    List.drop_left]

theorem get_cons (c : UInt8) (tail : List UInt8) (junk : ℕ → UInt8) :
    get ⟨c :: tail, false, junk⟩ = (c, ⟨tail, false, junk⟩) := by
  have h := read_append [c] tail junk
  simp only [get, show read 1 ⟨c :: tail, false, junk⟩ = _ from h, List.headD_cons]

/-- The junk that starts with the given bytes. -/
def junkOf (bs : List UInt8) : ℕ → UInt8 := fun i => bs[i]?.getD 0

theorem map_junkOf (bs tail : List UInt8) :
    (List.range bs.length).map (junkOf (bs ++ tail)) = bs := by
  apply List.ext_getElem (by simp)
  intro i h h'
  simp [junkOf, List.getElem?_append_left h', List.getElem?_eq_getElem h']

theorem junkOf_shift (bs tail : List UInt8) :
    (fun i => junkOf (bs ++ tail) (i + bs.length)) = junkOf tail := by
  funext i
  simp [junkOf, List.getElem?_append_right]

/-- Reading from a failed stream. -/
theorem read_junk (bs tail rest : List UInt8) :
    read bs.length ⟨rest, true, junkOf (bs ++ tail)⟩ = (bs, ⟨rest, true, junkOf tail⟩) := by
  rw [read_of_fail, map_junkOf, junkOf_shift]

/-- Reading across the end of the file. -/
theorem read_across (bs e tail : List UInt8) (he : e ≠ []) :
    read (bs ++ e).length ⟨bs, false, junkOf (e ++ tail)⟩ = (bs ++ e, ⟨[], true, junkOf tail⟩) := by
  have hlen : (bs ++ e).length - bs.length = e.length := by simp
  have hlt : bs.length < (bs ++ e).length := by
    have hpos := List.length_pos_of_ne_nil he
    rw [List.length_append]
    omega
  rw [read_of_lt hlt, hlen, map_junkOf, junkOf_shift]

end InStream

end SseExt
