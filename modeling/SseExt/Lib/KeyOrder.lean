import Mathlib.Data.Prod.Lex
import Mathlib.Tactic.Common

/-!
# Comparators that order by a key

A comparator that compares keys of a linear order is what an ordered container asks for: a strict
weak ordering (`OrderedBy.isStrictWeakOrder`), whose equivalence is equality of the keys.
-/

namespace SseExt

/-- `comp` is the order of the keys. -/
def OrderedBy {α β : Type*} [LT β] (comp : α → α → Bool) (key : α → β) : Prop :=
  ∀ a b, comp a b ↔ key a < key b

namespace OrderedBy

variable {α β γ δ : Type*} [LinearOrder β] {comp : α → α → Bool} {key : α → β} {a b : α}

/-- Neither is before the other. -/
theorem equivalent_iff (h : OrderedBy comp key) : ¬ comp a b ∧ ¬ comp b a ↔ key a = key b := by
  rw [h a b, h b a, not_lt, not_lt]
  exact ⟨fun ⟨hba, hab⟩ => le_antisymm hab hba, fun heq => ⟨heq.ge, heq.le⟩⟩

theorem isStrictWeakOrder (h : OrderedBy comp key) :
    IsStrictWeakOrder α fun a b => comp a b = true where
  irrefl a := by
    rw [h]
    exact lt_irrefl _
  trans a b c hab hbc := by
    rw [h] at hab hbc ⊢
    exact hab.trans hbc
  incomp_trans a b c hab hbc := by
    rw [h.equivalent_iff] at hab hbc ⊢
    exact hab.trans hbc

/-- **Pairs**, by the first component and then by the second. -/
theorem pair [DecidableEq γ] [LinearOrder δ] {before : γ → γ → Bool} {first : γ → δ}
    (hinj : Function.Injective first) (hfirst : OrderedBy before first) (h : OrderedBy comp key) :
    OrderedBy (fun p q : γ × α => if p.1 = q.1 then comp p.2 q.2 else before p.1 q.1)
      (fun p => toLex (first p.1, key p.2)) := by
  intro p q
  rw [Prod.Lex.toLex_lt_toLex]
  dsimp only
  rw [hinj.eq_iff]
  split_ifs with heq
  · rw [h, heq]
    simp
  · rw [hfirst]
    simp [heq]

end OrderedBy

end SseExt
