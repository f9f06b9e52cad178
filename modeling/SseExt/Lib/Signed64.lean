import Mathlib.Tactic.Common
import Mathlib.Tactic.Linarith

/-!
# Signed arithmetic of 64 bits

Operations on `Int64` wrap. They are those of the integers as long as the results fit (`Fits64`).
-/

namespace SseExt

/-- The integer is that of an `Int64`. -/
def Fits64 (x : ℤ) : Prop := -2 ^ 63 ≤ x ∧ x < 2 ^ 63

instance (x : ℤ) : Decidable (Fits64 x) := inferInstanceAs (Decidable (_ ∧ _))

theorem Fits64.bmod_eq {x : ℤ} (h : Fits64 x) : x.bmod (2 ^ 64) = x :=
  Int.bmod_eq_of_le (by simpa using h.1) (by simpa using h.2)

namespace Fits64

variable {a b : Int64}

theorem toInt_add (h : Fits64 (a.toInt + b.toInt)) : (a + b).toInt = a.toInt + b.toInt := by
  rw [Int64.toInt_add, h.bmod_eq]

theorem toInt_sub (h : Fits64 (a.toInt - b.toInt)) : (a - b).toInt = a.toInt - b.toInt := by
  rw [Int64.toInt_sub, h.bmod_eq]

theorem toInt_mul (h : Fits64 (a.toInt * b.toInt)) : (a * b).toInt = a.toInt * b.toInt := by
  rw [Int64.toInt_mul, h.bmod_eq]

end Fits64

theorem toInt_div_of_pos {a b : Int64} (hb : 0 < b.toInt) :
    (a / b).toInt = a.toInt.tdiv b.toInt := by
  refine Int64.toInt_div_of_ne_right a b ?_
  rintro rfl
  exact absurd hb (by decide)

/-- Truncation is the floor where it should be. -/
theorem toInt_div_of_nonneg {a b : Int64} (ha : 0 ≤ a.toInt) (hb : 0 < b.toInt) :
    (a / b).toInt = a.toInt / b.toInt := by
  rw [toInt_div_of_pos hb, Int.tdiv_eq_ediv_of_nonneg ha]

/-- A number that does not fit loses at least `2 ^ 64`. -/
theorem bmod_le_sub {x : ℤ} (h : 2 ^ 63 ≤ x) : x.bmod (2 ^ 64) ≤ x - 2 ^ 64 := by
  have hdvd := Int.dvd_bmod_sub_self (x := x) (m := 2 ^ 64)
  have hlt := Int.bmod_lt (x := x) (m := 2 ^ 64) (by decide)
  generalize x.bmod (2 ^ 64) = y at hdvd hlt ⊢
  push_cast at hdvd hlt
  obtain ⟨k, hk⟩ := hdvd
  omega

/-- **A quotient of a number that does not fit** is too small. -/
theorem tdiv_bmod_lt {x f : ℤ} (h : 2 ^ 63 ≤ x) (hf : 0 < f) (hf' : f < 2 ^ 63) :
    (x.bmod (2 ^ 64)).tdiv f < x / f := by
  have hle : (x.bmod (2 ^ 64)).tdiv f ≤ x.bmod (2 ^ 64) / f + 1 := by
    rw [Int.tdiv_eq_ediv, Int.sign_eq_one_of_pos hf]
    split_ifs <;> omega
  have hmono : x.bmod (2 ^ 64) / f ≤ (x + f * -2) / f := by
    have hsub := bmod_le_sub h
    exact Int.ediv_le_ediv hf (by omega)
  rw [Int.add_mul_ediv_left _ _ hf.ne'] at hmono
  omega

end SseExt
