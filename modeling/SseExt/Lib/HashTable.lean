import Mathlib.Data.List.Pairwise
import Mathlib.Order.Defs.Unbundled
import SseExt.Lib.HashPolicy

/-!
# Hash tables

A table is its elements and the number of its buckets. An insertion may leave more buckets, an
erasure does not change them. An element is referred to by its own key, which stays where it is.

`lookup` reads a table as a function. On well-formed tables (`WF`) the operations do to that
function what they are called for, at every key that is equal to theirs, and nothing elsewhere.
-/

namespace SseExt

structure HashTable (K V : Type*) where
  buckets : ℕ
  elems : List (K × V)

namespace HashTable

variable {K V : Type*} (H : HashPolicy K) (grow : ℕ → ℕ → ℕ)

/-- The policy among `n` buckets, whatever the number of elements. -/
def among (n : ℕ) : HashPolicy K := { H with bucket := fun _ => H.bucket n }

/-- A table without elements; `grow` gives the buckets for so many elements. -/
def empty : HashTable K V := ⟨grow 0 0, []⟩

def find (t : HashTable K V) (k : K) : Option (K × V) := (among H t.buckets).find t.elems k

/-- `try_emplace`: the element it returns, and whether it is new. -/
def tryEmplace (t : HashTable K V) (k : K) (v : V) : HashTable K V × K × Bool :=
  match t.find H k with
  | some e => (t, e.1, false)
  | none => (⟨grow t.buckets (t.elems.length + 1), t.elems ++ [(k, v)]⟩, k, true)

/-- Change the value of the element with this very key. -/
def modify [DecidableEq K] (t : HashTable K V) (k : K) (f : V → V) : HashTable K V :=
  { t with elems := t.elems.map fun e => if e.1 = k then (e.1, f e.2) else e }

/-- `erase(key)` -/
def erase [DecidableEq K] (t : HashTable K V) (k : K) : HashTable K V :=
  match t.find H k with
  | some e => { t with elems := t.elems.filter (·.1 ≠ e.1) }
  | none => t

/-- The value at a key. -/
def lookup (t : HashTable K V) (k : K) : Option V := (t.find H k).map Prod.snd

/-- Its keys obey the law of hash containers and are pairwise different. -/
structure WF (t : HashTable K V) : Prop where
  law : ∀ e ∈ t.elems, ∀ k, H.eq e.1 k → H.hash e.1 = H.hash k
  unique : t.elems.Pairwise fun a b => ¬ H.eq a.1 b.1

variable {H grow} {t : HashTable K V} {k k' : K} {v : V} {e : K × V}

theorem WF.empty : WF H (empty grow : HashTable K V) where
  law _ he := nomatch he
  unique := .nil

/-- **On well-formed tables the buckets do not matter.** -/
theorem WF.find_eq (h : WF H t) (k : K) : t.find H k = t.elems.find? fun e => H.eq e.1 k :=
  HashPolicy.find_eq fun e he => h.law e he k

theorem WF.find_none (h : WF H t) : t.find H k = none ↔ ∀ e ∈ t.elems, ¬ H.eq e.1 k := by
  rw [h.find_eq, List.find?_eq_none]

section

variable (heq : Equivalence fun a b => (H.eq a b : Prop))

include heq

theorem WF.eq_of_eq (h : WF H t) {e' : K × V} (he : e ∈ t.elems) (he' : e' ∈ t.elems)
    (hee' : H.eq e.1 e'.1) : e = e' := by
  have hsymm : Std.Symm fun a b : K × V => ¬ H.eq a.1 b.1 :=
    ⟨fun a b hab hba => hab (heq.symm hba)⟩
  by_contra hne
  exact h.unique.forall he he' hne hee'

/-- **A key finds the element equal to it.** -/
theorem WF.find_some (h : WF H t) : t.find H k = some e ↔ e ∈ t.elems ∧ H.eq e.1 k := by
  rw [h.find_eq]
  constructor
  · intro hfind
    exact ⟨List.mem_of_find?_eq_some hfind,
      List.find?_some (p := fun e : K × V => H.eq e.1 k) hfind⟩
  · rintro ⟨he, hek⟩
    cases hfind : t.elems.find? fun e => H.eq e.1 k with
    | none => exact absurd hek (List.find?_eq_none.1 hfind e he)
    | some e' =>
      have hek' : H.eq e'.1 k := List.find?_some (p := fun e : K × V => H.eq e.1 k) hfind
      rw [h.eq_of_eq heq (List.mem_of_find?_eq_some hfind) he (heq.trans hek' (heq.symm hek))]

/-- Equal keys find the same element. -/
theorem WF.find_congr (h : WF H t) (hk : H.eq k k') : t.find H k = t.find H k' := by
  apply Option.ext
  intro e
  rw [h.find_some heq, h.find_some heq]
  refine and_congr_right fun _ => ⟨fun hek => heq.trans hek hk, fun hek => ?_⟩
  exact heq.trans hek (heq.symm hk)

theorem WF.lookup_congr (h : WF H t) (hk : H.eq k k') : t.lookup H k = t.lookup H k' := by
  rw [lookup, lookup, h.find_congr heq hk]

end

/-! ## Insertion -/

theorem WF.tryEmplace (h : WF H t) (grow : ℕ → ℕ → ℕ)
    (hk : ∀ k', H.eq k k' → H.hash k = H.hash k') (v : V) : WF H (t.tryEmplace H grow k v).1 := by
  unfold HashTable.tryEmplace
  cases hfind : t.find H k with
  | some e => exact h
  | none =>
    have hnone := h.find_none.1 hfind
    refine ⟨fun e he => ?_, ?_⟩
    · rcases List.mem_append.1 he with he | he
      · exact h.law e he
      · obtain rfl := List.mem_singleton.1 he
        exact hk
    · refine List.pairwise_append.2 ⟨h.unique, List.pairwise_singleton _ _, fun e he e' he' => ?_⟩
      obtain rfl := List.mem_singleton.1 he'
      exact hnone e he

section

variable (heq : Equivalence fun a b => (H.eq a b : Prop))

include heq

/-- The element returned is in the table and equal to the key. -/
theorem WF.tryEmplace_key (h : WF H t) (grow : ℕ → ℕ → ℕ) (k : K) (v : V) :
    (t.tryEmplace H grow k v).2.1 ∈ (t.tryEmplace H grow k v).1.elems.map Prod.fst ∧
      H.eq (t.tryEmplace H grow k v).2.1 k := by
  unfold HashTable.tryEmplace
  cases hfind : t.find H k with
  | some e =>
    obtain ⟨he, hek⟩ := (h.find_some heq).1 hfind
    exact ⟨List.mem_map_of_mem he, hek⟩
  | none => exact ⟨by simp, heq.refl k⟩

omit heq in
/-- It is new if the key was not there. -/
theorem tryEmplace_new (H : HashPolicy K) (grow : ℕ → ℕ → ℕ) (t : HashTable K V) (k : K) (v : V) :
    (t.tryEmplace H grow k v).2.2 = (t.lookup H k).isNone := by
  unfold HashTable.tryEmplace lookup
  cases t.find H k <;> rfl

theorem WF.lookup_tryEmplace (h : WF H t) (grow : ℕ → ℕ → ℕ)
    (hk : ∀ k', H.eq k k' → H.hash k = H.hash k') (v : V) (k' : K) :
    (t.tryEmplace H grow k v).1.lookup H k' =
      if H.eq k k' then some ((t.lookup H k').getD v) else t.lookup H k' := by
  have hwf := h.tryEmplace grow hk v
  unfold HashTable.tryEmplace at hwf ⊢
  cases hfind : t.find H k with
  | some e =>
    dsimp only
    split_ifs with hkk'
    · rw [lookup, ← h.find_congr heq hkk', hfind]
      rfl
    · rfl
  | none =>
    simp only [hfind] at hwf
    simp only [lookup, hwf.find_eq, List.find?_append, h.find_eq]
    split_ifs with hkk'
    · rw [← h.find_eq, ← h.find_congr heq hkk', hfind]
      simp [hkk']
    · simp [hkk']

end

/-! ## Changing and erasing -/

section

variable [DecidableEq K]

theorem WF.modify (h : WF H t) (k : K) (f : V → V) : WF H (t.modify k f) := by
  constructor
  · intro e he k' hek
    obtain ⟨e₀, he₀, rfl⟩ := List.mem_map.1 he
    have hkey : (if e₀.1 = k then (e₀.1, f e₀.2) else e₀).1 = e₀.1 := by
      split_ifs <;> rfl
    rw [hkey] at hek ⊢
    exact h.law e₀ he₀ k' hek
  · refine List.pairwise_map.2 (h.unique.imp fun {a b} hab => ?_)
    split_ifs <;> exact hab

theorem WF.erase (h : WF H t) (k : K) : WF H (t.erase H k) := by
  unfold HashTable.erase
  cases t.find H k with
  | none => exact h
  | some e =>
    exact ⟨fun e' he' => h.law e' ((List.mem_filter.1 he').1), h.unique.filter _⟩

variable (heq : Equivalence fun a b => (H.eq a b : Prop))

include heq

theorem WF.lookup_modify (h : WF H t) (hk : k ∈ t.elems.map Prod.fst) (f : V → V) (k' : K) :
    (t.modify k f).lookup H k' =
      if H.eq k k' then (t.lookup H k').map f else t.lookup H k' := by
  have hcomp : ((fun e : K × V => H.eq e.1 k') ∘ fun e => if e.1 = k then (e.1, f e.2) else e) =
      fun e => H.eq e.1 k' := by
    funext e
    simp only [Function.comp_apply]
    split_ifs <;> rfl
  have hfind : (t.modify k f).find H k' =
      (t.find H k').map fun e => if e.1 = k then (e.1, f e.2) else e := by
    rw [(h.modify k f).find_eq, h.find_eq, HashTable.modify, List.find?_map, hcomp]
  rw [lookup, lookup, hfind]
  cases he : t.find H k' with
  | none => split_ifs <;> rfl
  | some e =>
    obtain ⟨hmem, hek'⟩ := (h.find_some heq).1 he
    split_ifs with hkk'
    · obtain ⟨e₀, he₀, rfl⟩ := List.mem_map.1 hk
      rw [h.eq_of_eq heq hmem he₀ (heq.trans hek' (heq.symm hkk'))]
      simp
    · have hne : e.1 ≠ k := fun hek => hkk' (hek ▸ hek')
      simp [hne]

/-- **Insertion followed by a change** of the element returned. -/
theorem WF.lookup_upsert (h : WF H t) (grow : ℕ → ℕ → ℕ)
    (hk : ∀ k', H.eq k k' → H.hash k = H.hash k') (v : V) (f : V → V) (k' : K) :
    ((t.tryEmplace H grow k v).1.modify (t.tryEmplace H grow k v).2.1 f).lookup H k' =
      if H.eq k k' then some (f ((t.lookup H k').getD v)) else t.lookup H k' := by
  obtain ⟨hmem, hkey⟩ := h.tryEmplace_key heq grow k v
  have hkk' : H.eq (t.tryEmplace H grow k v).2.1 k' ↔ H.eq k k' :=
    ⟨fun hk' => heq.trans (heq.symm hkey) hk', fun hk' => heq.trans hkey hk'⟩
  rw [(h.tryEmplace grow hk v).lookup_modify heq hmem, h.lookup_tryEmplace heq grow hk]
  simp only [hkk']
  split_ifs <;> rfl

theorem WF.lookup_erase (h : WF H t) (k k' : K) :
    (t.erase H k).lookup H k' = if H.eq k k' then none else t.lookup H k' := by
  have hwf := h.erase k
  unfold HashTable.erase at hwf ⊢
  cases hfind : t.find H k with
  | none =>
    dsimp only
    split_ifs with hkk'
    · rw [lookup, ← h.find_congr heq hkk', hfind]
      rfl
    · rfl
  | some e =>
    obtain ⟨he, hek⟩ := (h.find_some heq).1 hfind
    simp only [hfind] at hwf
    simp only [lookup, hwf.find_eq, h.find_eq, List.find?_filter]
    split_ifs with hkk'
    · rw [Option.map_eq_none_iff, List.find?_eq_none]
      intro a ha hp
      simp only [decide_eq_true_eq] at hp
      have hae : H.eq a.1 e.1 := heq.trans hp.2 (heq.symm (heq.trans hek hkk'))
      exact hp.1 (congrArg Prod.fst (h.eq_of_eq heq ha he hae))
    · refine congrArg _ (List.find?_congr fun a ha => ?_)
      by_cases hak : H.eq a.1 k'
      · have hne : a.1 ≠ e.1 := fun hae => hkk' (heq.trans (heq.symm hek) (hae ▸ hak))
        simp [hak, hne]
      · simp [hak]

end

/-! ## What all values have in common -/

section

variable {P : V → Prop}

theorem forall_tryEmplace (h : ∀ e ∈ t.elems, P e.2) (hv : P v) :
    ∀ e ∈ (t.tryEmplace H grow k v).1.elems, P e.2 := by
  unfold tryEmplace
  cases t.find H k with
  | some e => exact h
  | none =>
    intro e he
    rcases List.mem_append.1 he with he | he
    · exact h e he
    · obtain rfl := List.mem_singleton.1 he
      exact hv

theorem forall_modify [DecidableEq K] {f : V → V} (h : ∀ e ∈ t.elems, P e.2)
    (hf : ∀ v, P v → P (f v)) : ∀ e ∈ (t.modify k f).elems, P e.2 := by
  intro e he
  obtain ⟨e₀, he₀, rfl⟩ := List.mem_map.1 he
  split_ifs
  · exact hf _ (h e₀ he₀)
  · exact h e₀ he₀

theorem forall_erase [DecidableEq K] (h : ∀ e ∈ t.elems, P e.2) :
    ∀ e ∈ (t.erase H k).elems, P e.2 := by
  unfold erase
  cases t.find H k with
  | none => exact h
  | some e => exact fun e' he' => h e' (List.mem_filter.1 he').1

theorem forall_lookup (h : ∀ e ∈ t.elems, P e.2) (hv : t.lookup H k = some v) : P v := by
  obtain ⟨e, he, rfl⟩ := Option.map_eq_some_iff.1 hv
  exact h e (List.mem_of_find?_eq_some he)

end

end HashTable

end SseExt
