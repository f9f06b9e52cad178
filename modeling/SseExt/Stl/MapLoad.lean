import SseExt.Stl.MapRefines

/-!
# Loading a map

`load` clears the target and inserts the pairs of the archive one by one, so it needs nothing of
their order.

**Theorem (`load_spec`).** Whatever the target held and whatever the archive returns, the loaded
map is strictly ascending and holds for each key the value of its first occurrence. A map saved
under one order and loaded under another is the same function of the same size.

Both halves go through the finite map of the archive, `ofPairs`, which knows no order.
-/

namespace SseExt.Stl

namespace FMap

variable {K V : Type*} [DecidableEq K]

/-- The finite map of a list of pairs; the first pair of a key wins. -/
def ofPairs (es : List (K × V)) : FMap K V := es.foldl place ∅

theorem lookup_place (M : FMap K V) (e : K × V) (k : K) :
    (M.place e).lookup k = (M.lookup k).or (if e.1 = k then some e.2 else none) := by
  unfold place
  split_ifs with hmem hk hk
  · subst hk
    obtain ⟨v, hv⟩ := Finmap.mem_iff.1 hmem
    rw [hv]; rfl
  · rw [Option.or_none]
  · subst hk
    rw [Finmap.lookup_insert, Finmap.lookup_eq_none.2 hmem]; rfl
  · rw [Finmap.lookup_insert_of_ne _ (Ne.symm hk), Option.or_none]

theorem lookup_foldl_place (es : List (K × V)) (M : FMap K V) (k : K) :
    (es.foldl place M).lookup k = (M.lookup k).or ((es.find? (·.1 = k)).map Prod.snd) := by
  induction es generalizing M with
  | nil => simp
  | cons e es ih =>
    rw [List.foldl_cons, ih, lookup_place, Option.or_assoc, List.find?_cons]
    by_cases hk : e.1 = k <;> simp [hk]

theorem lookup_ofPairs (es : List (K × V)) (k : K) :
    (ofPairs es).lookup k = (es.find? (·.1 = k)).map Prod.snd := by
  rw [ofPairs, lookup_foldl_place, Finmap.lookup_empty, Option.none_or]

end FMap

namespace Map

variable {K V : Type*} [DecidableEq K]

theorem load_refines (Pr : LessEqual K) (m : Map K V) (tmp : List (K × V)) :
    Refines Pr (m.load Pr.le tmp) (FMap.ofPairs tmp) :=
  insertInit_spec refines_empty tmp

/-- An ascending vector is its own list of pairs. -/
theorem refines_ofPairs {Pr : LessEqual K} {m : Map K V} (h : Ascending Pr Prod.fst m.data) :
    Refines Pr m (FMap.ofPairs m.data) where
  ascending := h
  mem {k v} := by
    rw [FMap.lookup_ofPairs, Option.map_eq_some_iff]
    constructor
    · intro hmem
      cases hfind : m.data.find? (·.1 = k) with
      | none => simpa using List.find?_eq_none.1 hfind _ hmem
      | some e =>
        -- Both pairs have the key `k`, so they stand at one position.
        have hk : e.1 = k := by simpa using List.find?_some hfind
        obtain ⟨i, hi⟩ := List.mem_iff_getElem?.1 (List.mem_of_find?_eq_some hfind)
        obtain ⟨j, hj⟩ := List.mem_iff_getElem?.1 hmem
        obtain rfl := h.pos_inj hi hj hk
        rw [hi, Option.some.injEq] at hj
        exact ⟨e, rfl, by rw [hj]⟩
    · rintro ⟨e, hfind, rfl⟩
      have hk : e.1 = k := by simpa using List.find?_some hfind
      exact hk ▸ List.mem_of_find?_eq_some hfind

/-- **Loading rebuilds the map.** -/
theorem load_spec (Pr : LessEqual K) (m : Map K V) (tmp : List (K × V)) :
    Ascending Pr Prod.fst (m.load Pr.le tmp).data ∧
      (∀ k v, (k, v) ∈ (m.load Pr.le tmp).data ↔
        (tmp.find? (·.1 = k)).map Prod.snd = some v) ∧
      ∀ (Pr' : LessEqual K) (m' : Map K V), Ascending Pr' Prod.fst m'.data →
        (∀ k, (m.load Pr.le m'.save).atKey Pr.le k = m'.atKey Pr'.le k) ∧
          (m.load Pr.le m'.save).size = m'.size := by
  have h := load_refines Pr m tmp
  refine ⟨h.ascending, fun k v => ?_, fun Pr' m' hm' => ?_⟩
  · rw [h.mem, FMap.lookup_ofPairs]
  · have hload := (load_refines Pr m m'.save).agrees
    have hsaved := (refines_ofPairs hm').agrees
    refine ⟨fun k => ?_, hload.size.trans hsaved.size.symm⟩
    rw [hload.atKey, hsaved.atKey]; rfl

/-- Saved ascending, loaded descending over other contents. -/
theorem load_spec_flip :
    (∀ k, ((⟨[(9, 9)]⟩ : Map ℕ ℕ).load LessEqual.nat.flip.le
        (⟨[(1, 10), (2, 20)]⟩ : Map ℕ ℕ).save).atKey LessEqual.nat.flip.le k =
        (⟨[(1, 10), (2, 20)]⟩ : Map ℕ ℕ).atKey LessEqual.nat.le k) ∧
      ((⟨[(9, 9)]⟩ : Map ℕ ℕ).load LessEqual.nat.flip.le
        (⟨[(1, 10), (2, 20)]⟩ : Map ℕ ℕ).save).size = 2 :=
  (load_spec LessEqual.nat.flip ⟨[(9, 9)]⟩ []).2.2 LessEqual.nat ⟨[(1, 10), (2, 20)]⟩
    (by simp [Ascending, LessEqual.Lt, LessEqual.nat])

example : ((⟨[(9, 9)]⟩ : Map ℕ ℕ).load LessEqual.nat.flip.le [(1, 10), (2, 20), (1, 30)]).data =
    [(2, 20), (1, 10)] := by decide

end Map

end SseExt.Stl
