import Mathlib.Data.List.Basic
import Mathlib.Tactic.Common

/-!
# Binary search

`upperBound p l` is `std::upper_bound` with the value bound into the comparator: it halves a range
`[first, first + len)`, moving to the left half when `p` holds in the middle.

**Theorem (`isBound_upperBound`).** On a list partitioned by `p` (once `p` holds it keeps holding)
the result is the position of the first element with `p`, or the length when there is none.
-/

namespace SseExt

variable {α : Type*} (p : α → Bool) (l : List α)

/-- The search loop; each round at least halves `len`, so `len` is enough fuel. -/
def upperBoundFrom : ℕ → ℕ → ℕ → ℕ
  | 0, first, _ => first
  | fuel + 1, first, len =>
    if len = 0 then first
    else if l[first + len / 2]?.any p then upperBoundFrom fuel first (len / 2)
    else upperBoundFrom fuel (first + len / 2 + 1) (len - len / 2 - 1)

/-- `std::upper_bound` -/
def upperBound : ℕ := upperBoundFrom p l l.length 0 l.length

/-- Position `i` splits the list: `p` fails before it and holds from it on. -/
structure IsBound (i : ℕ) : Prop where
  le : i ≤ l.length
  before : ∀ {j e}, j < i → l[j]? = some e → ¬ p e
  after : ∀ {j e}, i ≤ j → l[j]? = some e → p e

variable {p l}

/-- **One round.** The bound stays in the window that the round keeps. -/
theorem upperBoundFrom_spec (hpart : l.Pairwise fun a b => p a → p b) {fuel first len : ℕ}
    (hfuel : len ≤ fuel) (hlen : first + len ≤ l.length)
    (hbefore : ∀ {j e}, j < first → l[j]? = some e → ¬ p e)
    (hafter : ∀ {j e}, first + len ≤ j → l[j]? = some e → p e) :
    IsBound p l (upperBoundFrom p l fuel first len) := by
  induction fuel generalizing first len with
  | zero =>
    have h0 : len = 0 := Nat.le_zero.1 hfuel
    subst h0
    exact ⟨hlen, hbefore, hafter⟩
  | succ fuel ih =>
    unfold upperBoundFrom
    by_cases h0 : len = 0
    · subst h0
      exact ⟨hlen, hbefore, hafter⟩
    rw [if_neg h0]
    have hmid : first + len / 2 < l.length := by omega
    have hm : l[first + len / 2]? = some l[first + len / 2] := List.getElem?_eq_getElem hmid
    have hmono : ∀ {i j : ℕ} {a b : α}, i < j → l[i]? = some a → l[j]? = some b → p a → p b := by
      intro i j a b hij ha hb
      obtain ⟨hi, rfl⟩ := List.getElem?_eq_some_iff.1 ha
      obtain ⟨hj, rfl⟩ := List.getElem?_eq_some_iff.1 hb
      exact List.pairwise_iff_getElem.1 hpart i j hi hj hij
    rw [hm, Option.any_some]
    by_cases hp : p l[first + len / 2]
    · rw [if_pos hp]
      refine ih (by omega) (by omega) hbefore fun {j e} hj he => ?_
      rcases Nat.lt_or_eq_of_le hj with hlt | rfl
      · exact hmono hlt hm he hp
      · rw [hm, Option.some.injEq] at he
        exact he ▸ hp
    · rw [if_neg hp]
      refine ih (by omega) (by omega) (fun {j e} hj he => ?_) fun {j e} hj => hafter (by omega)
      rcases Nat.lt_or_eq_of_le (Nat.le_of_lt_succ hj) with hlt | rfl
      · exact fun h => hp (hmono hlt he hm h)
      · rw [hm, Option.some.injEq] at he
        exact he ▸ hp

/-- **The search finds the bound.** -/
theorem isBound_upperBound (hpart : l.Pairwise fun a b => p a → p b) :
    IsBound p l (upperBound p l) :=
  upperBoundFrom_spec hpart (Nat.le_refl _) (Nat.le_of_eq (Nat.zero_add _))
    (fun h => absurd h (Nat.not_lt_zero _)) fun {j e} hj he => by
      obtain ⟨h, -⟩ := List.getElem?_eq_some_iff.1 he
      omega

end SseExt
