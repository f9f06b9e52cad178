import SseExt.Lib.Signed64
import Mathlib.Tactic.Positivity
import Mathlib.Tactic.Ring

/-!
# `PerfCounter`

Ticks of the performance counter and what they are in microseconds. `long long` arithmetic wraps.

**Elapsed time** (`deltaUs_eq_iff`). `delta_us` is exact if and only if the product that it forms
before it divides fits in 64 bits: otherwise it is too small.

**Theorem (`deltaUs_t_iff`).** `T` divides before it multiplies, so what it makes of a duration
loses the part of the frequency below a megahertz. There and back, the loss is within the precision
of the counter if and only if that part, times the duration, is.
-/

namespace SseExt

structure PerfCounter where
  /-- `m_perf_freq`; the constructor replaces 0 by 1. -/
  perfFreq : Int64

/-- `delta_us` -/
def PerfCounter.deltaUs (c : PerfCounter) (tp1 tp2 : Int64) : Int64 :=
  ((tp2 - tp1) * 1000000) / c.perfFreq

namespace PerfCounter

/-- The constructor, from what `QueryPerformanceFrequency` answers; `none` when it fails. -/
def new (queried : Option Int64) : PerfCounter :=
  match queried with
  | none => ⟨1⟩
  | some f => if f = 0 then ⟨1⟩ else ⟨f⟩

/-- `T` -/
def t (c : PerfCounter) (tp : Int64) : Int64 := (c.perfFreq / 1000000) * tp

/-- The microseconds between two ticks. -/
def elapsed (c : PerfCounter) (tp1 tp2 : Int64) : ℤ :=
  (tp2.toInt - tp1.toInt) * 1000000 / c.perfFreq.toInt

variable {c : PerfCounter} {tp1 tp2 tp3 : Int64}

theorem new_pos {queried : Option Int64} (h : ∀ f, queried = some f → 0 ≤ f.toInt) :
    0 < (new queried).perfFreq.toInt := by
  cases queried with
  | none => decide
  | some f =>
    have hf := h f rfl
    rw [new]
    split_ifs with hzero
    · decide
    · have hne : f.toInt ≠ 0 := fun h0 => hzero (Int64.toInt_inj.1 h0)
      dsimp only
      omega

/-! ## Elapsed time -/

theorem toInt_million : (1000000 : Int64).toInt = 1000000 := rfl

theorem elapsed_nonneg (hf : 0 < c.perfFreq.toInt) (hle : tp1.toInt ≤ tp2.toInt) :
    0 ≤ c.elapsed tp1 tp2 :=
  Int.ediv_nonneg (by omega) hf.le

theorem elapsed_mono (hf : 0 < c.perfFreq.toInt) (h : tp2.toInt ≤ tp3.toInt) :
    c.elapsed tp1 tp2 ≤ c.elapsed tp1 tp3 :=
  Int.ediv_le_ediv hf (by omega)

/-- What is divided. -/
theorem toInt_deltaUs (hf : 0 < c.perfFreq.toInt) (hdiff : Fits64 (tp2.toInt - tp1.toInt)) :
    (c.deltaUs tp1 tp2).toInt =
      (((tp2.toInt - tp1.toInt) * 1000000).bmod (2 ^ 64)).tdiv c.perfFreq.toInt := by
  rw [deltaUs, toInt_div_of_pos hf, Int64.toInt_mul, hdiff.toInt_sub, toInt_million]

theorem deltaUs_eq (hf : 0 < c.perfFreq.toInt) (hle : tp1.toInt ≤ tp2.toInt)
    (hdiff : Fits64 (tp2.toInt - tp1.toInt))
    (hprod : (tp2.toInt - tp1.toInt) * 1000000 < 2 ^ 63) :
    (c.deltaUs tp1 tp2).toInt = c.elapsed tp1 tp2 := by
  have hfits : Fits64 ((tp2.toInt - tp1.toInt) * 1000000) := ⟨by omega, hprod⟩
  rw [toInt_deltaUs hf hdiff, hfits.bmod_eq, Int.tdiv_eq_ediv_of_nonneg (by omega), elapsed]

theorem deltaUs_of_fits (hf : 0 < c.perfFreq.toInt) (hle : tp1.toInt ≤ tp2.toInt)
    (hprod : Fits64 ((tp2.toInt - tp1.toInt) * 1000000)) :
    (c.deltaUs tp1 tp2).toInt = c.elapsed tp1 tp2 := by
  obtain ⟨hlo, hhi⟩ := hprod
  exact deltaUs_eq hf hle ⟨by omega, by omega⟩ hhi

/-- **`delta_us` is exact** if and only if its product fits. -/
theorem deltaUs_eq_iff (hf : 0 < c.perfFreq.toInt) (hle : tp1.toInt ≤ tp2.toInt)
    (hdiff : Fits64 (tp2.toInt - tp1.toInt)) :
    (c.deltaUs tp1 tp2).toInt = c.elapsed tp1 tp2 ↔
      (tp2.toInt - tp1.toInt) * 1000000 < 2 ^ 63 := by
  constructor
  · intro heq
    by_contra hprod
    have hlt := tdiv_bmod_lt (not_lt.1 hprod) hf c.perfFreq.toInt_lt
    rw [toInt_deltaUs hf hdiff, elapsed] at heq
    omega
  · exact deltaUs_eq hf hle hdiff

/-! ## There and back -/

/-- What a counter cannot tell apart, in microseconds, and at least one. -/
def precision (c : PerfCounter) : ℤ :=
  max 1 ((1000000 + c.perfFreq.toInt - 1) / c.perfFreq.toInt)

/-- The frequency in whole megahertz. -/
theorem toInt_t (hf : 0 < c.perfFreq.toInt) {u : Int64}
    (hticks : Fits64 (c.perfFreq.toInt / 1000000 * u.toInt)) :
    (c.t u).toInt = c.perfFreq.toInt / 1000000 * u.toInt := by
  have hdiv : (c.perfFreq / 1000000).toInt = c.perfFreq.toInt / 1000000 :=
    toInt_div_of_nonneg hf.le (by decide)
  rw [t, Fits64.toInt_mul (hdiv.symm ▸ hticks), hdiv]

theorem one_le_precision (c : PerfCounter) : 1 ≤ c.precision := le_max_left _ _

/-- The sum and the difference wrap, but not what they make together. -/
theorem add_sub_cancel_start (t x : Int64) : t + x - t = x := by
  rw [Int64.add_comm, Int64.add_sub_cancel]

theorem toInt_deltaUs_t (hf : 0 < c.perfFreq.toInt) (t : Int64) {u : Int64} (hu : 0 ≤ u.toInt)
    (hticks : Fits64 (c.perfFreq.toInt / 1000000 * u.toInt))
    (hprod : Fits64 (c.perfFreq.toInt / 1000000 * u.toInt * 1000000)) :
    (c.deltaUs t (t + c.t u)).toInt =
      c.perfFreq.toInt / 1000000 * u.toInt * 1000000 / c.perfFreq.toInt := by
  have hq : 0 ≤ c.perfFreq.toInt / 1000000 := Int.ediv_nonneg hf.le (by decide)
  have hnum : (c.t u * 1000000).toInt = c.perfFreq.toInt / 1000000 * u.toInt * 1000000 := by
    have hticksInt := toInt_t hf hticks
    rw [Fits64.toInt_mul (by rwa [hticksInt, toInt_million]), hticksInt, toInt_million]
  rw [deltaUs, add_sub_cancel_start, toInt_div_of_nonneg (by rw [hnum]; positivity) hf, hnum]

/-- **There and back**, the part of the frequency below a megahertz is lost. -/
theorem deltaUs_t_iff (hf : 1 ≤ c.perfFreq.toInt) (t : Int64) {u : Int64} (hu : 0 ≤ u.toInt)
    (hticks : Fits64 (c.perfFreq.toInt / 1000000 * u.toInt))
    (hprod : Fits64 (c.perfFreq.toInt / 1000000 * u.toInt * 1000000)) :
    |(c.deltaUs t (t + c.t u)).toInt - u.toInt| ≤ c.precision ↔
      c.perfFreq.toInt % 1000000 * u.toInt ≤ c.perfFreq.toInt * c.precision := by
  rw [toInt_deltaUs_t hf t hu hticks hprod]
  have hfreq : c.perfFreq.toInt / 1000000 * 1000000 + c.perfFreq.toInt % 1000000 =
      c.perfFreq.toInt := Int.ediv_mul_add_emod _ _
  have hrest : 0 ≤ c.perfFreq.toInt % 1000000 := Int.emod_nonneg _ (by decide)
  have hprec := c.one_le_precision
  generalize c.perfFreq.toInt / 1000000 = q at hfreq ⊢
  generalize c.perfFreq.toInt % 1000000 = r at hfreq hrest ⊢
  generalize c.perfFreq.toInt = f at hf hfreq ⊢
  generalize c.precision = b at hprec ⊢
  generalize u.toInt = u at hu ⊢
  -- The result is never too large, so the distance is what is missing.
  have hle : q * u * 1000000 / f ≤ u := by
    refine Int.ediv_le_of_le_mul hf ?_
    rw [← hfreq]
    nlinarith [mul_nonneg hrest hu]
  have hdist : |q * u * 1000000 / f - u| ≤ b ↔ u - b ≤ q * u * 1000000 / f := by
    rw [abs_le]
    omega
  have hexpand : (u - b) * f = q * u * 1000000 + (r * u - f * b) := by
    rw [← hfreq]
    ring
  rw [hdist, Int.le_ediv_iff_mul_le hf, hexpand]
  omega

/-- A counter of 10 MHz. -/
def tenMegahertz : PerfCounter := ⟨10000000⟩

theorem deltaUs_t_iff_sample :
    |(tenMegahertz.deltaUs 7 (7 + tenMegahertz.t 1000)).toInt - 1000| ≤ tenMegahertz.precision :=
  (deltaUs_t_iff (c := tenMegahertz) (by decide) 7 (u := 1000) (by decide) (by decide)
    (by decide)).2 (by decide)

/-- A counter of 3.579545 MHz. -/
def powerManagementTimer : PerfCounter := ⟨3579545⟩

/-- A millisecond comes back as 838 microseconds. -/
theorem millisecond_lost :
    (powerManagementTimer.deltaUs 0 (0 + powerManagementTimer.t 1000)).toInt = 838 ∧
      ¬ |(powerManagementTimer.deltaUs 0 (0 + powerManagementTimer.t 1000)).toInt - 1000| ≤
        powerManagementTimer.precision := by
  decide

end PerfCounter

end SseExt
