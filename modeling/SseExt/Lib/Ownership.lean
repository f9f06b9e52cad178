import SseExt.Lib.Handles

/-!
# Ownership by handles

Handles may be stored in the things that handles refer to; `owner` says in which. A thing goes with
the last handle on it, and takes the handles stored in it along.

`Dies h owner o r`: if the handle `o` goes, so does `r`. All handles on `r` are `o` or stored in
things that go, and there is at least one.
-/

namespace SseExt.Handles

variable {ι ρ : Type*} {h : Handles ι ρ} {owner : ι → Option ρ} {o p q : ι} {r : ρ}

/-- What goes when `o` goes. -/
inductive Dies (h : Handles ι ρ) (owner : ι → Option ρ) (o : ι) : ρ → Prop
  | intro {r : ρ} {p : ι} (hp : p ∈ h.live) (hr : h.ref p = r)
      (hstored : ∀ q ∈ h.live, h.ref q = r → q ≠ o → (owner q).isSome)
      (hdies : ∀ q ∈ h.live, h.ref q = r → q ≠ o → ∀ r', owner q = some r' → Dies h owner o r') :
      Dies h owner o r

/-- A handle that goes with `o`. -/
def Goes (h : Handles ι ρ) (owner : ι → Option ρ) (o p : ι) : Prop :=
  p = o ∨ ∃ r, owner p = some r ∧ Dies h owner o r

theorem Dies.of_goes (hp : p ∈ h.live) (hr : h.ref p = r)
    (hgoes : ∀ q ∈ h.live, h.ref q = r → Goes h owner o q) : Dies h owner o r := by
  refine .intro hp hr (fun q hq hqr hqo => ?_) fun q hq hqr hqo r' hown => ?_
  · obtain ⟨r', hown, -⟩ := (hgoes q hq hqr).resolve_left hqo
    rw [hown]
    rfl
  · obtain ⟨r'', hown', hdies⟩ := (hgoes q hq hqr).resolve_left hqo
    rw [hown] at hown'
    cases hown'
    exact hdies

/-- Nothing goes with a handle that is not live. -/
theorem Dies.live (hd : Dies h owner o r) : o ∈ h.live := by
  induction hd with
  | @intro r p hp hr hstored _ ih =>
    by_cases hpo : p = o
    · exact hpo ▸ hp
    · obtain ⟨r', hown⟩ := Option.isSome_iff_exists.1 (hstored p hp hr hpo)
      exact ih p hp hr hpo r' hown

/-- Fewer than `k` handles on `r` stay when `o` goes. -/
def FewStay (h : Handles ι ρ) (owner : ι → Option ρ) (o : ι) (r : ρ) (k : ℕ) : Prop :=
  ∀ S : Finset ι, (∀ p ∈ S, p ∈ h.live ∧ h.ref p = r ∧ ¬ Goes h owner o p) → S.card < k

section

variable [DecidableEq ρ]

theorem FewStay.of_count {k : ℕ} (hc : h.count r < k) : FewStay h owner o r k := by
  intro S hS
  refine lt_of_le_of_lt (Finset.card_le_card fun p hp => ?_) hc
  exact Finset.mem_filter.2 ⟨(hS p hp).1, (hS p hp).2.1⟩

/-- The only handle on something. -/
theorem eq_of_count_eq_one (hc : h.count r = 1) (hp : p ∈ h.live) (hpr : h.ref p = r)
    (hq : q ∈ h.live) (hqr : h.ref q = r) : p = q :=
  Finset.card_le_one.1 hc.le p (Finset.mem_filter.2 ⟨hp, hpr⟩) q (Finset.mem_filter.2 ⟨hq, hqr⟩)

end

end SseExt.Handles
