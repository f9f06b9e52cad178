import Mathlib.Data.Finset.Card
import Mathlib.Data.Set.Function
import Mathlib.Tactic.Common

/-!
# Counted handles

A finite set of live handles, each referring to something. `count r` is the number of live
handles on `r`: what a reference counter kept next to `r` should hold. Handles that own what they
refer to alone are those on which `ref` is injective.
-/

namespace SseExt

/-- Live handles and what they refer to. -/
structure Handles (ι ρ : Type*) where
  live : Finset ι
  ref : ι → ρ

namespace Handles

variable {ι ρ : Type*}

/-- The number of live handles on `r`. -/
def count [DecidableEq ρ] (h : Handles ι ρ) (r : ρ) : ℕ :=
  (h.live.filter fun o => h.ref o = r).card

/-- Make `o` a live handle on `r`. -/
def set [DecidableEq ι] (h : Handles ι ρ) (o : ι) (r : ρ) : Handles ι ρ :=
  ⟨insert o h.live, Function.update h.ref o r⟩

/-- End the life of `o`. -/
def drop [DecidableEq ι] (h : Handles ι ρ) (o : ι) : Handles ι ρ := ⟨h.live.erase o, h.ref⟩

variable {h : Handles ι ρ} {o p : ι} {r r' : ρ}

theorem count_pos [DecidableEq ρ] (ho : o ∈ h.live) : 0 < h.count (h.ref o) :=
  Finset.card_pos.2 ⟨o, Finset.mem_filter.2 ⟨ho, rfl⟩⟩

theorem count_le_one [DecidableEq ρ] (hinj : Set.InjOn h.ref h.live) (r : ρ) : h.count r ≤ 1 := by
  refine Finset.card_le_one.2 fun o ho p hp => ?_
  rw [Finset.mem_filter] at ho hp
  exact hinj ho.1 hp.1 (ho.2.trans hp.2.symm)

theorem count_eq_zero [DecidableEq ρ] : h.count r = 0 ↔ ∀ o ∈ h.live, h.ref o ≠ r := by
  simp [count, Finset.filter_eq_empty_iff]

variable [DecidableEq ι]

@[simp] theorem mem_live_set : p ∈ (h.set o r).live ↔ p = o ∨ p ∈ h.live := Finset.mem_insert

@[simp] theorem mem_live_drop : p ∈ (h.drop o).live ↔ p ≠ o ∧ p ∈ h.live := Finset.mem_erase

@[simp] theorem ref_set_self : (h.set o r).ref o = r := Function.update_self ..

theorem ref_set_of_ne (hp : p ≠ o) : (h.set o r).ref p = h.ref p := Function.update_of_ne hp ..

@[simp] theorem ref_drop : (h.drop o).ref = h.ref := rfl

@[simp] theorem drop_set : (h.drop o).set o r = h.set o r := by
  simp only [set, drop, mk.injEq, and_true]
  ext p
  simp only [Finset.mem_insert, Finset.mem_erase]
  tauto

/-- Ending and restarting the life of `o` around that of `p`. -/
theorem drop_set_set : ((h.drop o).set p r).set o r' = (h.set p r).set o r' := by
  simp only [set, drop, mk.injEq, and_true]
  ext q
  simp only [Finset.mem_insert, Finset.mem_erase]
  tauto

@[simp] theorem set_drop (ho : o ∉ h.live) : ((h.set o r).drop o).live = h.live := by
  simp [set, drop, ho]

theorem injOn_drop (hinj : Set.InjOn h.ref h.live) (o : ι) :
    Set.InjOn (h.drop o).ref (h.drop o).live :=
  hinj.mono fun _ hp => (mem_live_drop.1 hp).2

/-- A handle on what no other handle refers to. -/
theorem injOn_set (hinj : Set.InjOn h.ref h.live) (hne : ∀ p ∈ h.live, p ≠ o → h.ref p ≠ r) :
    Set.InjOn (h.set o r).ref (h.set o r).live := by
  have hmem : ∀ p ∈ (h.set o r).live, p ≠ o → p ∈ h.live := fun p hp hpo =>
    (mem_live_set.1 hp).resolve_left hpo
  intro p hp q hq hpq
  by_cases hpo : p = o <;> by_cases hqo : q = o
  · rw [hpo, hqo]
  · rw [hpo, ref_set_self, ref_set_of_ne hqo] at hpq
    exact absurd hpq.symm (hne q (hmem q hq hqo) hqo)
  · rw [hqo, ref_set_self, ref_set_of_ne hpo] at hpq
    exact absurd hpq (hne p (hmem p hp hpo) hpo)
  · rw [ref_set_of_ne hpo, ref_set_of_ne hqo] at hpq
    exact hinj (hmem p hp hpo) (hmem q hq hqo) hpq

variable [DecidableEq ρ]

/-- Dropping a handle takes one from the count of what it referred to. -/
theorem count_drop (ho : o ∈ h.live) :
    (h.drop o).count r + (if h.ref o = r then 1 else 0) = h.count r := by
  unfold count drop
  rw [Finset.filter_erase]
  split_ifs with hr
  · exact Finset.card_erase_add_one (Finset.mem_filter.2 ⟨ho, hr⟩)
  · have hn : o ∉ h.live.filter fun p => h.ref p = r := fun hm => hr (Finset.mem_filter.1 hm).2
    exact congrArg Finset.card (Finset.erase_eq_of_notMem hn)

theorem count_drop_self (ho : o ∈ h.live) : (h.drop o).count (h.ref o) + 1 = h.count (h.ref o) := by
  simpa using count_drop (r := h.ref o) ho

theorem count_drop_of_ne (ho : o ∈ h.live) (hr : r ≠ h.ref o) : (h.drop o).count r = h.count r := by
  simpa [Ne.symm hr] using count_drop (r := r) ho

/-- A new handle adds one to the count of what it refers to. -/
theorem count_set (ho : o ∉ h.live) :
    (h.set o r).count r' = h.count r' + if r = r' then 1 else 0 := by
  have hm : o ∈ (h.set o r).live := mem_live_set.2 (Or.inl rfl)
  have hc := count_drop (r := r') hm
  rw [ref_set_self] at hc
  have hd : ((h.set o r).drop o).count r' = h.count r' := by
    unfold count
    rw [set_drop ho]
    refine congrArg _ (Finset.filter_congr fun x hx => ?_)
    have hxo : x ≠ o := fun e => ho (e ▸ hx)
    rw [ref_drop, ref_set_of_ne hxo]
  rw [← hc, hd]

theorem count_set_self (ho : o ∉ h.live) : (h.set o r).count r = h.count r + 1 := by
  rw [count_set ho, if_pos rfl]

theorem count_set_of_ne (ho : o ∉ h.live) (hr : r' ≠ r) : (h.set o r).count r' = h.count r' := by
  rw [count_set ho, if_neg (Ne.symm hr)]; rfl

/-- A live handle made to refer to something else. -/
theorem count_set_of_mem (ho : o ∈ h.live) (r r' : ρ) :
    (h.set o r).count r' + (if h.ref o = r' then 1 else 0) =
      h.count r' + if r = r' then 1 else 0 := by
  have ho' : o ∉ (h.drop o).live := fun hm => (mem_live_drop.1 hm).1 rfl
  rw [← drop_set, count_set ho', ← count_drop ho]
  omega

/-- Handing a reference over from one handle to another leaves all counts alone. -/
theorem count_drop_set (hp : p ∈ h.live) (ho : o ∉ h.live) :
    ((h.drop p).set o (h.ref p)).count r = h.count r := by
  have ho' : o ∉ (h.drop p).live := fun hm => ho (mem_live_drop.1 hm).2
  rw [count_set ho', count_drop hp]

end Handles

end SseExt
