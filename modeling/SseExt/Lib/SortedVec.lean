import Mathlib.Data.Finset.Sort
import Mathlib.Data.List.InsertIdx
import SseExt.Lib.UpperBound

/-!
# Sorted vectors

A vector of entries kept strictly ascending by a key. `search` is `std::upper_bound` with a `≤`
comparator, so it finds the first entry whose key is not below the one sought: the position of the
key if it is there, and otherwise the only position where it can be inserted.

The comparator is a value (`LessEqual`), not an instance, so that one development can speak of
two orders on the same keys.
-/

namespace SseExt

/-- A total order as a comparator, with its laws. -/
structure LessEqual (K : Type*) where
  le : K → K → Bool
  total : ∀ a b, le a b ∨ le b a
  trans : ∀ {a b c}, le a b → le b c → le a c
  antisymm : ∀ {a b}, le a b → le b a → a = b

namespace LessEqual

variable {K : Type*} (Pr : LessEqual K)

/-- The relation of the comparator. -/
def Le (a b : K) : Prop := Pr.le a b

instance : DecidableRel Pr.Le := fun a b => inferInstanceAs (Decidable (Pr.le a b = true))

instance : IsTrans K Pr.Le := ⟨fun _ _ _ => Pr.trans⟩

instance : Std.Antisymm Pr.Le := ⟨fun _ _ => Pr.antisymm⟩

instance : Std.Total Pr.Le := ⟨Pr.total⟩

/-- Strictly before. -/
def Lt (a b : K) : Prop := Pr.le a b ∧ a ≠ b

variable {Pr} {a b c : K}

theorem refl (a : K) : Pr.le a a := (Pr.total a a).elim id id

theorem lt_iff_not_le : Pr.Lt a b ↔ ¬ Pr.le b a := by
  refine ⟨fun h hba => h.2 (Pr.antisymm h.1 hba), fun h => ⟨?_, ?_⟩⟩
  · exact (Pr.total a b).resolve_right h
  · rintro rfl
    exact h (refl a)

/-- The natural numbers, ascending. -/
def nat : LessEqual ℕ where
  le a b := a ≤ b
  total a b := by simpa using Nat.le_total a b
  trans h h' := by simp only [decide_eq_true_eq] at *; exact Nat.le_trans h h'
  antisymm h h' := by simp only [decide_eq_true_eq] at *; exact Nat.le_antisymm h h'

/-- The same keys in the opposite order. -/
def flip (Pr : LessEqual K) : LessEqual K where
  le a b := Pr.le b a
  total a b := Pr.total b a
  trans h h' := Pr.trans h' h
  antisymm h h' := Pr.antisymm h' h

end LessEqual

section

variable {ε K : Type*} (Pr : LessEqual K) (key : ε → K)

/-- Strictly ascending by key. -/
def Ascending (l : List ε) : Prop := l.Pairwise fun a b => Pr.Lt (key a) (key b)

/-- `std::upper_bound` for a key, with the comparator `≤`. -/
def search (le : K → K → Bool) (key : ε → K) (l : List ε) (k : K) : ℕ :=
  upperBound (fun e => le k (key e)) l

variable {Pr key} {l : List ε} {k : K} {e x : ε} {i : ℕ}

namespace Ascending

theorem nil : Ascending Pr key [] := List.Pairwise.nil

theorem lt_of_lt (h : Ascending Pr key l) {i j : ℕ} {a b : ε} (hij : i < j) (ha : l[i]? = some a)
    (hb : l[j]? = some b) : Pr.Lt (key a) (key b) := by
  obtain ⟨hi, rfl⟩ := List.getElem?_eq_some_iff.1 ha
  obtain ⟨hj, rfl⟩ := List.getElem?_eq_some_iff.1 hb
  exact List.pairwise_iff_getElem.1 h i j hi hj hij

/-- Entries are determined by their keys. -/
theorem pos_inj (h : Ascending Pr key l) {i j : ℕ} {a b : ε} (ha : l[i]? = some a)
    (hb : l[j]? = some b) (hk : key a = key b) : i = j := by
  rcases Nat.lt_trichotomy i j with hlt | heq | hgt
  · exact absurd hk (h.lt_of_lt hlt ha hb).2
  · exact heq
  · exact absurd hk.symm (h.lt_of_lt hgt hb ha).2

/-- **Searching.** The entries before the position have smaller keys, the others do not. -/
theorem search_spec (h : Ascending Pr key l) (k : K) :
    IsBound (fun e => Pr.le k (key e)) l (search Pr.le key l k) :=
  isBound_upperBound (h.imp fun hab hk => Pr.trans hk hab.1)

/-- A key that is there is found at its position. -/
theorem search_eq (h : Ascending Pr key l) (he : l[i]? = some e) :
    search Pr.le key l (key e) = i := by
  have hb := h.search_spec (key e)
  rcases Nat.lt_trichotomy (search Pr.le key l (key e)) i with hlt | heq | hgt
  · -- The entry at the bound is before `i`, so its key is smaller, but not smaller than that of
    -- `e`.
    have hlen : search Pr.le key l (key e) < l.length :=
      hlt.trans (List.getElem?_eq_some_iff.1 he).1
    have hx := List.getElem?_eq_getElem hlen
    have hle := hb.after le_rfl hx
    exact absurd hle (LessEqual.lt_iff_not_le.1 (h.lt_of_lt hlt hx he))
  · exact heq
  · exact absurd (LessEqual.refl (key e)) (hb.before hgt he)

/-- The key is there exactly if the search stops at it. -/
theorem search_hit (h : Ascending Pr key l) :
    (∃ e, l[search Pr.le key l k]? = some e ∧ key e = k) ↔ ∃ e ∈ l, key e = k := by
  constructor
  · rintro ⟨e, he, hk⟩
    exact ⟨e, List.mem_of_getElem? he, hk⟩
  · rintro ⟨e, he, rfl⟩
    obtain ⟨i, hi⟩ := List.mem_iff_getElem?.1 he
    exact ⟨e, by rw [h.search_eq hi]; exact hi, rfl⟩

/-- **Inserting.** A new key goes where the search stops. -/
theorem insertIdx (h : Ascending Pr key l) (hk : ∀ e ∈ l, key e ≠ key x) :
    Ascending Pr key (l.insertIdx (search Pr.le key l (key x)) x) := by
  have hb := h.search_spec (key x)
  set i := search Pr.le key l (key x)
  apply List.pairwise_iff_getElem.2
  intro m n hm hn hmn
  have hm' := List.getElem?_eq_getElem hm
  have hn' := List.getElem?_eq_getElem hn
  rw [List.getElem?_insertIdx] at hm' hn'
  generalize (l.insertIdx i x)[m] = a at hm' ⊢
  generalize (l.insertIdx i x)[n] = b at hn' ⊢
  -- Below `i` stand smaller keys, above `i` the larger ones.
  have hlow : ∀ {j e}, j < i → l[j]? = some e → Pr.Lt (key e) (key x) := fun hj he =>
    LessEqual.lt_iff_not_le.2 (hb.before hj he)
  have hhigh : ∀ {j e}, i ≤ j → l[j]? = some e → Pr.Lt (key x) (key e) := fun hj he =>
    ⟨hb.after hj he, (hk _ (List.mem_of_getElem? he)).symm⟩
  rcases Nat.lt_trichotomy m i with hmi | rfl | hmi
  · rw [if_pos hmi] at hm'
    rcases Nat.lt_trichotomy n i with hni | rfl | hni
    · rw [if_pos hni] at hn'
      exact h.lt_of_lt hmn hm' hn'
    · simp only [lt_irrefl, if_false, if_true, hb.le, Option.some.injEq] at hn'
      exact hn' ▸ hlow hmi hm'
    · rw [if_neg (by omega), if_neg (by omega)] at hn'
      exact h.lt_of_lt (by omega) hm' hn'
  · simp only [lt_irrefl, if_false, if_true, hb.le, Option.some.injEq] at hm'
    rw [if_neg (by omega), if_neg (by omega)] at hn'
    exact hm' ▸ hhigh (by omega) hn'
  · rw [if_neg (by omega), if_neg (by omega)] at hm' hn'
    exact h.lt_of_lt (by omega) hm' hn'

theorem mem_insertIdx (h : Ascending Pr key l) {e : ε} :
    e ∈ l.insertIdx (search Pr.le key l k) x ↔ e = x ∨ e ∈ l :=
  List.mem_insertIdx (h.search_spec k).le

/-- Erasing a position. -/
theorem eraseIdx (h : Ascending Pr key l) (i : ℕ) : Ascending Pr key (l.eraseIdx i) :=
  h.sublist (List.eraseIdx_sublist l i)

theorem mem_eraseIdx (h : Ascending Pr key l) (hi : l[i]? = some x) {e : ε} :
    e ∈ l.eraseIdx i ↔ e ∈ l ∧ key e ≠ key x := by
  rw [List.mem_eraseIdx_iff_getElem?]
  constructor
  · rintro ⟨j, hj, he⟩
    exact ⟨List.mem_of_getElem? he, fun hk => hj (h.pos_inj he hi hk)⟩
  · rintro ⟨he, hk⟩
    obtain ⟨j, hj⟩ := List.mem_iff_getElem?.1 he
    refine ⟨j, ?_, hj⟩
    rintro rfl
    rw [hi, Option.some.injEq] at hj
    exact hk (hj ▸ rfl)

/-- Overwriting an entry by one with the same key. -/
theorem set (h : Ascending Pr key l) (hi : l[i]? = some e) (hk : key x = key e) :
    Ascending Pr key (l.set i x) := by
  obtain ⟨hlen, rfl⟩ := List.getElem?_eq_some_iff.1 hi
  have hlen' : i < (l.map key).length := by rwa [List.length_map]
  have hmap : (l.set i x).map key = l.map key := by
    rw [List.map_set, hk, show key l[i] = (l.map key)[i] from (List.getElem_map key).symm]
    exact List.set_getElem_self hlen'
  have hpw := List.pairwise_map.2 h
  rw [← hmap] at hpw
  exact List.pairwise_map.1 hpw

theorem mem_set (h : Ascending Pr key l) (hi : l[i]? = some x) {e y : ε} :
    e ∈ l.set i y ↔ e = y ∨ e ∈ l ∧ key e ≠ key x := by
  rw [List.mem_iff_getElem?]
  have hlen := (List.getElem?_eq_some_iff.1 hi).1
  constructor
  · rintro ⟨j, hj⟩
    by_cases hij : i = j
    · subst hij
      rw [List.getElem?_set_self hlen, Option.some.injEq] at hj
      exact Or.inl hj.symm
    · rw [List.getElem?_set_ne hij] at hj
      exact Or.inr ⟨List.mem_of_getElem? hj, fun hk => hij (h.pos_inj hi hj hk.symm)⟩
  · rintro (rfl | ⟨he, hk⟩)
    · exact ⟨i, List.getElem?_set_self hlen⟩
    · obtain ⟨j, hj⟩ := List.mem_iff_getElem?.1 he
      have hij : i ≠ j := by
        rintro rfl
        rw [hi, Option.some.injEq] at hj
        exact hk (hj ▸ rfl)
      exact ⟨j, by rw [List.getElem?_set_ne hij]; exact hj⟩

/-- **Canonical form.** The keys are the sorted enumeration of the set of keys. -/
theorem map_eq_sort (h : Ascending Pr key l) {s : Finset K} (hs : ∀ k, k ∈ s ↔ ∃ e ∈ l, key e = k) :
    l.map key = s.sort Pr.Le := by
  have hpw : (l.map key).Pairwise Pr.Lt := List.pairwise_map.2 h
  have hperm : (l.map key).Perm (s.sort Pr.Le) := by
    have hnodup : (l.map key).Nodup := hpw.imp fun h => h.2
    refine (List.perm_ext_iff_of_nodup hnodup (Finset.sort_nodup s Pr.Le)).2 fun k => ?_
    rw [Finset.mem_sort, hs k, List.mem_map]
  exact hperm.eq_of_pairwise' (hpw.imp fun h => h.1) (Finset.pairwise_sort s Pr.Le)

section

variable [DecidableEq K] {s : Finset K}

/-- An entry stands where its key stands among the keys. -/
theorem idxOf_sort (h : Ascending Pr key l) (hs : ∀ k, k ∈ s ↔ ∃ e ∈ l, key e = k)
    (he : l[i]? = some e) : (s.sort Pr.Le).idxOf (key e) = i := by
  have hnodup : (s.sort Pr.Le).Nodup := Finset.sort_nodup s Pr.Le
  have hk : (s.sort Pr.Le)[i]? = some (key e) := by
    rw [← h.map_eq_sort hs, List.getElem?_map, he]; rfl
  obtain ⟨hlt, hget⟩ := List.getElem?_eq_some_iff.1 hk
  rw [← hget]
  exact hnodup.idxOf_getElem i hlt

/-- An absent key stands at the end. -/
theorem idxOf_sort_absent (h : Ascending Pr key l) (hs : ∀ k, k ∈ s ↔ ∃ e ∈ l, key e = k)
    (hk : k ∉ s) : (s.sort Pr.Le).idxOf k = l.length := by
  have hnot : k ∉ s.sort Pr.Le := mt (Finset.mem_sort Pr.Le).1 hk
  rw [List.idxOf_eq_length_iff.2 hnot, ← h.map_eq_sort hs, List.length_map]

end

end Ascending

end

end SseExt
