import Mathlib.Data.List.Dedup
import Mathlib.Data.List.Nodup

/-!
# Lists told apart by a field

Facts about a list on which a field `f` is injective (`(l.map f).Nodup`): an element is found by its
field, and two such fields select the same elements. `dedup_snoc` says what one more element does to
the list of last occurrences.
-/

namespace SseExt

variable {α β γ ε : Type*}

section

variable {f : α → β} {l : List α} {a : α} [DecidableEq β]

theorem find?_field (hnodup : (l.map f).Nodup) (ha : a ∈ l) :
    l.find? (fun x => f x = f a) = some a := by
  cases hfind : l.find? fun x => f x = f a with
  | none =>
    have hne := List.find?_eq_none.1 hfind a ha
    simp at hne
  | some b =>
    have hf : f b = f a := by simpa using List.find?_some hfind
    have hb : b ∈ l := List.mem_of_find?_eq_some hfind
    rw [List.inj_on_of_nodup_map hnodup hb ha hf]

theorem find?_field_none {b : β} (hb : b ∉ l.map f) : l.find? (fun x => f x = b) = none := by
  apply List.find?_eq_none.2
  intro x hx hfx
  apply hb
  rw [← of_decide_eq_true hfx]
  exact List.mem_map_of_mem hx

theorem map_filter_ne_field (b : β) :
    (l.filter (f · ≠ b)).map f = (l.map f).filter (· ≠ b) := by
  rw [List.filter_map]
  rfl

/-- Dropping an element by one field or by another is the same. -/
theorem filter_field {g : α → γ} [DecidableEq γ] (hf : (l.map f).Nodup) (hg : (l.map g).Nodup)
    (ha : a ∈ l) : l.filter (f · ≠ f a) = l.filter (g · ≠ g a) := by
  apply List.filter_congr
  intro b hb
  have hfb : f b = f a ↔ b = a := ⟨List.inj_on_of_nodup_map hf hb ha, fun e => e ▸ rfl⟩
  have hgb : g b = g a ↔ b = a := ⟨List.inj_on_of_nodup_map hg hb ha, fun e => e ▸ rfl⟩
  rw [decide_eq_decide, ne_eq, ne_eq, hfb, hgb]

theorem erase_field (hnodup : (l.map f).Nodup) (b : β) :
    (l.map f).erase b = (l.filter (f · ≠ b)).map f := by
  rw [hnodup.erase_eq_filter, map_filter_ne_field]
  apply List.filter_congr
  intro c _
  rw [bne, beq_eq_decide, decide_not]

/-- Changing the element at one field leaves the others alone. -/
theorem map_update_field {l' : List α} {g : α → α} (hnodup : ((l ++ a :: l').map f).Nodup) :
    (l ++ a :: l').map (fun x => if f x = f a then g x else x) = l ++ g a :: l' := by
  have hnot : f a ∉ (l ++ l').map f := by
    have hmid : (f a :: (l ++ l').map f).Nodup := by
      simpa [List.nodup_middle] using hnodup
    exact (List.nodup_cons.1 hmid).1
  have hid : ∀ m ⊆ l ++ l', m.map (fun x => if f x = f a then g x else x) = m := by
    intro m hm
    have hne : ∀ x ∈ m, (if f x = f a then g x else x) = id x := by
      intro x hx
      apply if_neg
      intro hfx
      exact hnot (hfx ▸ List.mem_map_of_mem (hm hx))
    rw [List.map_congr_left hne, List.map_id]
  rw [List.map_append, List.map_cons, hid l (List.subset_append_left _ _),
    hid l' (List.subset_append_right _ _), if_pos rfl]

end

/-- Changing some elements in other fields. -/
theorem map_ite_field {f : α → β} {g : α → α} (hfg : ∀ a, f (g a) = f a) (p : α → Prop)
    [DecidablePred p] (l : List α) : (l.map fun a => if p a then g a else a).map f = l.map f := by
  rw [List.map_map]
  apply List.map_congr_left
  intro a _
  simp only [Function.comp_apply]
  split_ifs
  · exact hfg a
  · rfl

/-- Looking up the fields of a list gives the list back. -/
theorem mapM_field {f : α → β} {find : β → Except ε α} {l : List α}
    (hfind : ∀ a ∈ l, find (f a) = .ok a) : (l.map f).mapM find = .ok l := by
  induction l with
  | nil => rfl
  | cons a l ih =>
    have ha := hfind a List.mem_cons_self
    have hl := ih fun b hb => hfind b (List.mem_cons_of_mem a hb)
    rw [List.map_cons, List.mapM_cons, ha, hl]
    rfl

/-- A further occurrence of `a` is its last. -/
theorem dedup_snoc [DecidableEq α] (l : List α) (a : α) :
    (l ++ [a]).dedup = l.dedup.filter (· ≠ a) ++ [a] := by
  induction l with
  | nil => rfl
  | cons b l ih =>
    rw [List.cons_append]
    by_cases hmem : b ∈ l
    · rw [List.dedup_cons_of_mem (List.mem_append_left _ hmem), List.dedup_cons_of_mem hmem, ih]
    · rw [List.dedup_cons_of_notMem hmem]
      by_cases hba : b = a
      · rw [List.dedup_cons_of_mem (by simp [hba]), ih, List.filter_cons_of_neg (by simp [hba])]
      · have hnot : b ∉ l ++ [a] := by simp [hmem, hba]
        rw [List.dedup_cons_of_notMem hnot, ih, List.filter_cons_of_pos (by simp [hba])]
        rfl

end SseExt
