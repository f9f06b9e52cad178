import Mathlib.Data.List.Induction
import Mathlib.Tactic.Common

/-!
# The first of each kind

`keepFirst r l` drops every element that an earlier kept one stands for (`r`), as a loop of
insertions that skip what is already there. `find?_keepFirst`: a search for a property of the kind
finds the same element as in `l`.
-/

namespace SseExt

variable {α : Type*} {r : α → α → Bool} {l : List α} {a b : α}

/-- Keep the elements no earlier kept element stands for. -/
def keepFirst (r : α → α → Bool) (l : List α) : List α :=
  l.foldl (fun acc a => if acc.any (r · a) then acc else acc ++ [a]) []

@[simp] theorem keepFirst_nil : keepFirst r [] = [] := rfl

theorem keepFirst_snoc : keepFirst r (l ++ [a]) =
    if (keepFirst r l).any (r · a) then keepFirst r l else keepFirst r l ++ [a] := by
  simp [keepFirst]

theorem mem_of_mem_keepFirst (h : a ∈ keepFirst r l) : a ∈ l := by
  induction l using List.reverseRecOn with
  | nil => exact h
  | append_singleton l b ih =>
    rw [keepFirst_snoc] at h
    split_ifs at h
    · exact List.mem_append_left _ (ih h)
    · rcases List.mem_append.1 h with h | h
      · exact List.mem_append_left _ (ih h)
      · exact List.mem_append_right _ h

/-- Every element has one that stands for it. -/
theorem exists_mem_keepFirst (hr : ∀ a, r a a) (h : b ∈ l) : ∃ a ∈ keepFirst r l, r a b := by
  induction l using List.reverseRecOn with
  | nil => cases h
  | append_singleton l c ih =>
    rw [keepFirst_snoc]
    rcases List.mem_append.1 h with h | h
    · obtain ⟨a, ha, hab⟩ := ih h
      refine ⟨a, ?_, hab⟩
      split_ifs
      · exact ha
      · exact List.mem_append_left _ ha
    · obtain rfl := List.mem_singleton.1 h
      split_ifs with hany
      · exact List.any_eq_true.1 hany
      · exact ⟨b, List.mem_append_right _ (List.mem_singleton_self b), hr b⟩

/-- **Searching.** What is dropped is not found before what stands for it. -/
theorem find?_keepFirst {p : α → Bool} (hp : ∀ a b, r a b → p b → p a) :
    (keepFirst r l).find? p = l.find? p := by
  induction l using List.reverseRecOn with
  | nil => rfl
  | append_singleton l b ih =>
    rw [keepFirst_snoc]
    split_ifs with hany
    · obtain ⟨a, ha, hab⟩ := List.any_eq_true.1 hany
      rw [ih, List.find?_append]
      cases hl : l.find? p with
      | some c => rfl
      | none =>
        have hpb : ¬ p b := by
          intro hb
          exact List.find?_eq_none.1 hl a (mem_of_mem_keepFirst ha) (hp a b hab hb)
        simp [hpb]
    · rw [List.find?_append, List.find?_append, ih]

/-- An element that is kept is the only one of its kind. -/
theorem find?_of_mem_keepFirst {p : α → Bool} (hp : ∀ a b, p a → p b → r a b)
    (ha : a ∈ keepFirst r l) (hpa : p a) : (keepFirst r l).find? p = some a := by
  induction l using List.reverseRecOn with
  | nil => cases ha
  | append_singleton l b ih =>
    rw [keepFirst_snoc] at ha ⊢
    split_ifs at ha ⊢ with hany
    · exact ih ha
    · rw [List.find?_append]
      rcases List.mem_append.1 ha with ha | ha
      · rw [ih ha]
        rfl
      · obtain rfl := List.mem_singleton.1 ha
        have hnone : (keepFirst r l).find? p = none := by
          apply List.find?_eq_none.2
          intro c hc hpc
          exact hany (List.any_eq_true.2 ⟨c, hc, hp c a hpc hpa⟩)
        simp [hnone, hpa]

/-- Among elements of different kinds nothing is dropped. -/
theorem keepFirst_eq_self (h : l.Pairwise fun a b => ¬ r a b) : keepFirst r l = l := by
  induction l using List.reverseRecOn with
  | nil => rfl
  | append_singleton l b ih =>
    obtain ⟨hl, -, hb⟩ := List.pairwise_append.1 h
    have hany : ¬ l.any (r · b) := by
      intro hany
      obtain ⟨a, ha, hab⟩ := List.any_eq_true.1 hany
      exact hb a ha b (List.mem_singleton_self b) hab
    rw [keepFirst_snoc, ih hl, if_neg hany]

end SseExt
