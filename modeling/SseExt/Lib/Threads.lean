import Mathlib.Algebra.BigOperators.Group.Finset.Basic
import Mathlib.Algebra.Order.BigOperators.Group.Finset

/-!
# Threads of which one moves

Thread `i` is at the program point `pc i`, and a step moves one of them: `Function.update pc i x`.

**Sums.** A quantity spread over the threads changes by what the moving thread's share changes
(`sum_update`).

**Locks.** `Held lock inside pc` says that the threads inside the critical section are those that
hold the lock. It survives the three kinds of move: entering, leaving, and everything else.
-/

namespace SseExt

variable {ι σ : Type*} [DecidableEq ι] {pc : ι → σ} {i j : ι} {x : σ}

section

open Finset

theorem sum_update {M : Type*} [AddCommMonoid M] (f : σ → M) (pc : ι → σ) {S : Finset ι}
    (hi : i ∈ S) (x : σ) :
    ∑ j ∈ S, f (Function.update pc i x j) + f (pc i) = ∑ j ∈ S, f (pc j) + f x := by
  have hrest : ∑ j ∈ S.erase i, f (Function.update pc i x j) = ∑ j ∈ S.erase i, f (pc j) := by
    apply sum_congr rfl
    intro j hj
    rw [Function.update_of_ne (ne_of_mem_erase hj)]
  rw [← sum_erase_add _ _ hi, ← sum_erase_add S (fun j => f (pc j)) hi, hrest,
    Function.update_self]
  rw [add_assoc, add_assoc, add_comm (f x)]

/-- **What the moving thread gives up is found elsewhere.** -/
theorem add_sum_update {M : Type*} [AddCancelCommMonoid M] (f : σ → M) {S : Finset ι} (hi : i ∈ S)
    {a a' : M} (h : a' + f x = a + f (pc i)) :
    a' + ∑ j ∈ S, f (Function.update pc i x j) = a + ∑ j ∈ S, f (pc j) := by
  apply @add_right_cancel _ _ _ _ (f (pc i))
  calc a' + ∑ j ∈ S, f (Function.update pc i x j) + f (pc i)
      = a' + (∑ j ∈ S, f (pc j) + f x) := by rw [add_assoc, sum_update f pc hi x]
    _ = a' + f x + ∑ j ∈ S, f (pc j) := by rw [add_assoc, add_comm (f x)]
    _ = a + ∑ j ∈ S, f (pc j) + f (pc i) := by rw [h, add_assoc, add_assoc, add_comm (f (pc i))]

omit [DecidableEq ι] in
/-- One thread's share is at most the whole. -/
theorem le_sum (f : σ → ℕ) (pc : ι → σ) {S : Finset ι} (hi : i ∈ S) :
    f (pc i) ≤ ∑ j ∈ S, f (pc j) :=
  single_le_sum (f := fun j => f (pc j)) (fun _ _ => Nat.zero_le _) hi

/-- A thread that has just been spawned has no share. -/
theorem sum_spawn {M : Type*} [AddCommMonoid M] {f : σ → M} (pc : ℕ → σ) (n : ℕ) {x : σ}
    (hx : f x = 0) :
    ∑ j ∈ range (n + 1), f (Function.update pc n x j) = ∑ j ∈ range n, f (pc j) := by
  rw [sum_range_succ, Function.update_self, hx, add_zero]
  apply sum_congr rfl
  intro j hj
  rw [Function.update_of_ne (Nat.ne_of_lt (mem_range.1 hj))]

end

/-- The threads at the points `inside` are those that hold the lock. -/
def Held (lock : Option ι) (inside : σ → Bool) (pc : ι → σ) : Prop :=
  ∀ i, inside (pc i) = true ↔ lock = some i

namespace Held

variable {lock : Option ι} {inside : σ → Bool}

omit [DecidableEq ι] in
/-- **Mutual exclusion.** -/
theorem unique (h : Held lock inside pc) (hi : inside (pc i) = true) (hj : inside (pc j) = true) :
    i = j :=
  Option.some.inj (((h i).1 hi).symm.trans ((h j).1 hj))

theorem enter (h : Held none inside pc) (hx : inside x = true) :
    Held (some i) inside (Function.update pc i x) := by
  intro j
  by_cases hj : j = i
  · rw [hj, Function.update_self]
    exact ⟨fun _ => rfl, fun _ => hx⟩
  · rw [Function.update_of_ne hj]
    have hfree : ¬ inside (pc j) = true := fun hp => nomatch (h j).1 hp
    exact ⟨fun hp => absurd hp hfree, fun e => absurd (Option.some.inj e).symm hj⟩

theorem leave (h : Held lock inside pc) (hi : inside (pc i) = true) (hx : inside x = false) :
    Held none inside (Function.update pc i x) := by
  intro j
  by_cases hj : j = i
  · rw [hj, Function.update_self, hx]
    exact ⟨nofun, nofun⟩
  · rw [Function.update_of_ne hj]
    exact ⟨fun hp => absurd (h.unique hp hi) hj, nofun⟩

theorem stay (h : Held lock inside pc) (hx : inside x = inside (pc i)) :
    Held lock inside (Function.update pc i x) := by
  intro j
  by_cases hj : j = i
  · rw [hj, Function.update_self, hx]
    exact h i
  · rw [Function.update_of_ne hj]
    exact h j

end Held

end SseExt
