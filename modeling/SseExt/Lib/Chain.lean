import Mathlib.Data.List.Nodup
import Mathlib.Logic.Function.Basic

/-!
# Chains of pointers

A node has a cell that holds a pointer or has not been set; a pointer is a node or the end of the
chain. `Chain next c l` says that following the cells from `c` visits `l` and comes to the end.

Chains that end repeat nothing (`Chain.nodup`). A new node in front keeps a chain a chain
(`Chain.push`); a node that is moved to the front of the chain it is in, with nothing else changed,
ties a knot (`Chain.knot`).
-/

namespace SseExt

/-- Following `next` from `c` visits the nodes `l` and ends. -/
inductive Chain {α : Type*} (next : α → Option (Option α)) : Option α → List α → Prop
  | nil : Chain next none []
  | cons {a : α} {c : Option α} {l : List α} :
      next a = some c → Chain next c l → Chain next (some a) (a :: l)

namespace Chain

variable {α : Type*} {next next' : α → Option (Option α)} {a : α} {c : Option α} {l l' : List α}

theorem congr (h : Chain next c l) (hnext : ∀ b ∈ l, next' b = next b) : Chain next' c l := by
  induction h with
  | nil => exact .nil
  | @cons b c l hb _ ih =>
    refine .cons ((hnext b List.mem_cons_self).trans hb) (ih fun d hd => ?_)
    exact hnext d (List.mem_cons_of_mem _ hd)

/-- There is one way to follow the cells. -/
theorem unique (h : Chain next c l) (h' : Chain next c l') : l = l' := by
  induction h generalizing l' with
  | nil =>
    cases h'
    rfl
  | @cons b c l hb _ ih =>
    cases h' with
    | @cons _ c' l' hb' hrest =>
      rw [hb] at hb'
      cases hb'
      rw [ih hrest]

/-- The nodes of a chain have cells that are set. -/
theorem isSome_of_mem (h : Chain next c l) (ha : a ∈ l) : (next a).isSome := by
  induction h with
  | nil => exact absurd ha List.not_mem_nil
  | cons hb _ ih =>
    rcases List.mem_cons.1 ha with rfl | ha
    · rw [hb]
      rfl
    · exact ih ha

/-- Following other cells, which differ at `a` only, still leads to `a`. -/
theorem reaches (h : Chain next c l) (ha : a ∈ l) (hnext : ∀ b ≠ a, next' b = next b)
    (h' : Chain next' c l') : ∃ l₀, Chain next' (some a) l₀ ∧ l₀.length ≤ l'.length := by
  induction h generalizing l' with
  | nil => exact absurd ha List.not_mem_nil
  | @cons b c l hb _ ih =>
    by_cases hba : b = a
    · exact ⟨l', hba ▸ h', Nat.le_refl _⟩
    · cases h' with
      | @cons _ c' l' hb' hrest =>
        rw [hnext b hba, hb] at hb'
        cases hb'
        obtain ⟨l₀, hl₀, hle⟩ := ih ((List.mem_cons.1 ha).resolve_left (Ne.symm hba)) hrest
        exact ⟨l₀, hl₀, Nat.le_succ_of_le hle⟩

/-- **A chain that ends visits every node at most once.** -/
theorem nodup (h : Chain next c l) : l.Nodup := by
  induction h with
  | nil => exact List.nodup_nil
  | @cons b c l hb hrest ih =>
    refine List.nodup_cons.2 ⟨fun hmem => ?_, ih⟩
    obtain ⟨l₀, hl₀, hle⟩ := hrest.reaches hmem (fun _ _ => rfl) hrest
    rw [← (Chain.cons hb hrest).unique hl₀, List.length_cons] at hle
    omega

variable [DecidableEq α]

/-- **A new node in front.** -/
theorem push (h : Chain next c l) (ha : a ∉ l) :
    Chain (Function.update next a (some c)) (some a) (a :: l) := by
  refine .cons (Function.update_self ..) (h.congr fun b hb => ?_)
  apply Function.update_of_ne
  rintro rfl
  exact ha hb

/-- **An old node in front** makes the chain endless. -/
theorem knot (h : Chain next c l) (ha : a ∈ l) :
    ¬ Chain (Function.update next a (some c)) (some a) l' := by
  intro h'
  cases h' with
  | @cons _ c' m hcell hrest =>
    rw [Function.update_self] at hcell
    cases hcell
    obtain ⟨l₀, hl₀, hle⟩ := h.reaches ha (fun b hb => Function.update_of_ne hb _ _) hrest
    have hwhole := Chain.cons (Function.update_self a (some c) next) hrest
    rw [← hwhole.unique hl₀, List.length_cons] at hle
    omega

end Chain

end SseExt
