import Mathlib.Algebra.Order.Group.Multiset
import Mathlib.Data.List.Nodup

/-!
# Numbered occurrences

The same item may be handed in several times. Numbering the occurrences in order (`tickets`) tells
them apart, so "exactly once" is a count.

**Ledgers.** With a history for each number, `ledger` is the multiset of the tickets with their
histories. Recording an event moves one entry (`ledger_update`); a new occurrence adds one
(`ledger_snoc`). An invariant that equates what is found in the various places of a system with its
ledger says both where each occurrence is and what has happened to it.
-/

namespace SseExt

/-- An item and the number of its occurrence. -/
abbrev Ticket (α : Type*) := α × ℕ

variable {α H : Type*}

/-- The occurrences of the items handed in. -/
def tickets (issued : List α) : List (Ticket α) := issued.zipIdx

def numbers (l : List (Ticket α)) : List ℕ := l.map Prod.snd

variable {issued : List α} {x : Ticket α} {k : ℕ}

theorem tickets_snoc (issued : List α) (a : α) :
    tickets (issued ++ [a]) = tickets issued ++ [(a, issued.length)] := by
  rw [tickets, List.zipIdx_append, Nat.zero_add]
  rfl

theorem numbers_tickets (issued : List α) :
    numbers (tickets issued) = List.range issued.length := by
  rw [numbers, tickets, List.zipIdx_map_snd, List.range_eq_range']

theorem mem_tickets : x ∈ tickets issued ↔ issued[x.2]? = some x.1 :=
  List.mem_zipIdx_iff_getElem?

/-- **Each number is given out once.** -/
theorem count_numbers_tickets (hk : k < issued.length) :
    (numbers (tickets issued)).count k = 1 := by
  rw [numbers_tickets]
  exact List.count_eq_one_of_mem List.nodup_range (List.mem_range.2 hk)

theorem coe_middle (l l' : List α) (a : α) :
    (↑(l ++ a :: l') : Multiset α) = ↑(l ++ l') + {a} := by
  rw [← Multiset.coe_singleton, Multiset.coe_add, Multiset.coe_eq_coe]
  exact List.perm_middle.trans (List.perm_append_singleton a (l ++ l')).symm

/-! ## Ledgers -/

/-- The tickets with the histories of their numbers. -/
def ledger (issued : List α) (hist : ℕ → H) : Multiset (Ticket α × H) :=
  ↑((tickets issued).map fun x => (x, hist x.2))

variable {hist : ℕ → H} {h h' : H}

theorem mem_ledger : (x, h) ∈ ledger issued hist ↔ x ∈ tickets issued ∧ hist x.2 = h := by
  rw [ledger, Multiset.mem_coe, List.mem_map]
  refine ⟨?_, fun ⟨hx, hh⟩ => ⟨x, hx, by rw [hh]⟩⟩
  intro ⟨y, hy, hyx⟩
  cases hyx
  exact ⟨hy, rfl⟩

theorem map_ledger (issued : List α) (hist : ℕ → H) :
    (ledger issued hist).map Prod.fst = (tickets issued : Multiset (Ticket α)) := by
  rw [ledger, Multiset.map_coe, List.map_map]
  exact congrArg _ (List.map_id _)

/-- Histories of other numbers do not show. -/
theorem map_update (l : List (Ticket α)) (hk : k ∉ numbers l) :
    (l.map fun x => (x, Function.update hist k h' x.2)) = l.map fun x => (x, hist x.2) := by
  apply List.map_congr_left
  intro y hy
  have hyk : y.2 ≠ k := by
    intro e
    exact hk (e ▸ List.mem_map_of_mem hy)
  rw [Function.update_of_ne hyk]

/-- **Recording an event moves one entry.** -/
theorem ledger_update (hx : (x, h) ∈ ledger issued hist) (h' : H) :
    ledger issued (Function.update hist x.2 h') + {(x, h)} = ledger issued hist + {(x, h')} := by
  obtain ⟨hmem, rfl⟩ := mem_ledger.1 hx
  obtain ⟨pre, post, hsplit⟩ := List.append_of_mem hmem
  have hnodup : (numbers (pre ++ x :: post)).Nodup := by
    rw [← hsplit, numbers_tickets]
    exact List.nodup_range
  have hnot : x.2 ∉ numbers pre ∧ x.2 ∉ numbers post := by
    rw [numbers, List.map_append, List.map_cons, List.nodup_middle, List.nodup_cons,
      List.mem_append, not_or] at hnodup
    exact hnodup.1
  simp only [ledger, hsplit, List.map_append, List.map_cons, map_update pre hnot.1,
    map_update post hnot.2, Function.update_self]
  rw [coe_middle, coe_middle, add_right_comm]

/-- **A new occurrence is one more entry.** -/
theorem ledger_snoc (issued : List α) (hist : ℕ → H) (a : α) (h : H) :
    ledger (issued ++ [a]) (Function.update hist issued.length h) =
      ledger issued hist + {((a, issued.length), h)} := by
  have hnot : issued.length ∉ numbers (tickets issued) := by
    rw [numbers_tickets]
    exact fun hmem => Nat.lt_irrefl _ (List.mem_range.1 hmem)
  rw [ledger, tickets_snoc, List.map_append, map_update _ hnot, ← Multiset.coe_add, List.map_cons,
    Function.update_self]
  rfl

end SseExt
