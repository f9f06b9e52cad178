import SseExt.PerfTimer
import SseExt.Tasks.Budget

/-!
# Decisions about elapsed time

`TaskQueue::ProcessTasks(budget)` and `PerfTimerInt::End` compare what `delta_us` returns with a
budget and an interval.

**Theorem (`decides_iff`).** Both decide by the time that has elapsed if and only if the ticks,
times a million, fit in 64 bits. A counter of 10 MHz has more of them after some ten days.
-/

namespace SseExt.PerfCounter

open ITaskPool

variable {τ φ σ : Type*} {c : PerfCounter} {tp1 tp2 : Int64}

/-- The loop of `ProcessTasks(budget)` that began at `tp1` ends after a round, if that is at `tp2`,
exactly when the time is more than the budget. -/
def StopsByElapsed (c : PerfCounter) (tp1 tp2 : Int64) (τ φ σ : Type*) : Prop :=
  ∀ (B : Behaviour τ φ σ) (clock : ℕ → Int64) (q : QueueId) (budget : Int64) (p : ITaskPool τ φ σ),
    p.queues q ≠ [] → clock p.reading = tp2 →
      ((processLoopFor B c clock q budget tp1 1 p).2 ↔ budget.toInt < c.elapsed tp1 tp2)

/-- `End` at `tp2`, in a window that began at `tp1`, reports exactly when the time is at least the
interval. -/
def ReportsByElapsed (c : PerfCounter) (tp1 tp2 : Int64) : Prop :=
  ∀ (clock : ℕ → Int64) (own : Bool) (p : PerfTimerInt),
    p.tIntervalBegin = tp1 → clock p.reading = tp2 →
      ((p.endTo c clock own).1.isSome ↔ p.interval.toInt ≤ c.elapsed tp1 tp2)

theorem reading_runTask (B : Behaviour τ φ σ) (p : ITaskPool τ φ σ) (q : QueueId) (task : τ) :
    (runTask B p q task).reading = p.reading := by
  have hadd := congrArg ITaskPool.reading (foldl_addTask_reading (B.run task p.world).2
    { p with world := (B.run task p.world).1, log := p.log ++ [.task q task] } p.reading)
  exact hadd

/-- One round of the loop. -/
theorem processLoopFor_one (B : Behaviour τ φ σ) (c : PerfCounter) (clock : ℕ → Int64)
    {q : QueueId} (budget begin : Int64) {p : ITaskPool τ φ σ} (hne : p.queues q ≠ []) :
    (processLoopFor B c clock q budget begin 1 p).2 ↔
      budget < c.deltaUs begin (clock p.reading) := by
  obtain ⟨task, rest, hq⟩ := List.exists_cons_of_ne_nil hne
  rw [processLoopFor]
  simp only [hq, query, reading_runTask]
  split_ifs with hstop
  · simpa using hstop
  · simpa [processLoopFor] using hstop

theorem stopsByElapsed (h : (c.deltaUs tp1 tp2).toInt = c.elapsed tp1 tp2) :
    StopsByElapsed c tp1 tp2 τ φ σ := by
  rintro B clock q budget p hne rfl
  rw [processLoopFor_one B c clock budget tp1 hne, Int64.lt_iff_toInt_lt, h]

theorem reportsByElapsed (h : (c.deltaUs tp1 tp2).toInt = c.elapsed tp1 tp2) :
    ReportsByElapsed c tp1 tp2 := by
  rintro clock own p rfl rfl
  rw [PerfTimerInt.isSome_endTo, Int64.le_iff_toInt_le, h]

/-- **Elapsed microseconds** are exact, and what depends on them is decided by them, if and only if
the product of the ticks and a million fits in 64 bits. -/
theorem decides_iff (hf : 1 ≤ c.perfFreq.toInt) (hle : tp1 ≤ tp2)
    (hdiff : Fits64 (tp2.toInt - tp1.toInt)) :
    ((c.deltaUs tp1 tp2).toInt = c.elapsed tp1 tp2 ∧
      (∀ tp, tp1 ≤ tp → tp ≤ tp2 → c.deltaUs tp1 tp ≤ c.deltaUs tp1 tp2) ∧
      StopsByElapsed c tp1 tp2 τ φ σ ∧ ReportsByElapsed c tp1 tp2) ↔
    (tp2.toInt - tp1.toInt) * 1000000 < 2 ^ 63 := by
  have hle' := Int64.le_iff_toInt_le.1 hle
  rw [← deltaUs_eq_iff hf hle' hdiff]
  constructor
  · exact fun h => h.1
  · intro heq
    refine ⟨heq, fun tp hlo hhi => ?_, stopsByElapsed heq, reportsByElapsed heq⟩
    have hlo' := Int64.le_iff_toInt_le.1 hlo
    have hhi' := Int64.le_iff_toInt_le.1 hhi
    have hprod := (deltaUs_eq_iff hf hle' hdiff).1 heq
    rw [Int64.le_iff_toInt_le, heq, deltaUs_eq hf hlo' ⟨by omega, by omega⟩ (by omega)]
    exact elapsed_mono hf hhi'

/-- Ten milliseconds. -/
theorem decides_iff_sample :
    (tenMegahertz.deltaUs 7 100007).toInt = tenMegahertz.elapsed 7 100007 ∧
      (∀ tp, 7 ≤ tp → tp ≤ 100007 → tenMegahertz.deltaUs 7 tp ≤ tenMegahertz.deltaUs 7 100007) ∧
      StopsByElapsed tenMegahertz 7 100007 ℕ ℕ Unit ∧ ReportsByElapsed tenMegahertz 7 100007 :=
  Iff.mpr (decides_iff (by decide) (by decide) (by decide)) (by decide)

/-- After eleven and a half days the microseconds are negative. -/
theorem days_lost :
    Fits64 ((10000000000000 : Int64).toInt - (0 : Int64).toInt) ∧
      tenMegahertz.elapsed 0 10000000000000 = 1000000000000 ∧
      (tenMegahertz.deltaUs 0 10000000000000).toInt = -844674407370 := by
  decide

end SseExt.PerfCounter
