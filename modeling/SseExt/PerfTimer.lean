import SseExt.PerfCounter

/-!
# `PerfTimerInt`

A timer that reports, about once an interval, how long its samples took on average. A sample is what
lies between a `Begin` and its `End`; the first `End` after the interval reports.

**Windows.** The samples since the timer was made, or last reset, are split after each report. A
window starts where the one before it was reported.

**Theorem (`end_reports`).** Every sample is in one window. The last sample of a window, and no
other, finds that the interval has passed since the window's start, and it reports the average of
the window's durations.
-/

namespace SseExt

/-- `PerfTimerInt`, with the number of times the clock was read. -/
structure PerfTimerInt where
  interval : Int64
  tIntervalBegin : Int64
  tStart : Int64
  tCounter : Int64
  tAccum : Int64
  tInterval : Int64
  tLast : Int64
  reading : ℕ

namespace PerfTimerInt

variable (c : PerfCounter) (clock : ℕ → Int64)

/-- `IPerfCounter::Query` -/
def query (p : PerfTimerInt) : Int64 × PerfTimerInt :=
  (clock p.reading, { p with reading := p.reading + 1 })

/-- The constructor. -/
def new (interval : Int64) : PerfTimerInt := ⟨interval, clock 0, 0, 0, 0, 0, 0, 1⟩

/-- `Begin` -/
def begin (p : PerfTimerInt) : PerfTimerInt :=
  let now := p.query clock
  { now.2 with tStart := now.1 }

def setInterval (p : PerfTimerInt) (interval : Int64) : PerfTimerInt :=
  { p with interval := interval }

def reset (p : PerfTimerInt) : PerfTimerInt :=
  let now := p.query clock
  { now.2 with tIntervalBegin := now.1, tAccum := 0, tCounter := 0, tLast := 0 }

/-- `a_out = value`, where `a_out` may be `m_tLast`. -/
def writeOut (own : Bool) (p : PerfTimerInt) (value : Int64) : PerfTimerInt :=
  if own then { p with tLast := value } else p

/-- `End`, with what it writes to `a_out` when it returns true. `End()` passes its own `m_tLast`. -/
def endTo (own : Bool) (p : PerfTimerInt) : Option Int64 × PerfTimerInt :=
  let now := p.query clock
  let tEnd := now.1
  let p := now.2
  let p := { p with tAccum := p.tAccum + c.deltaUs p.tStart tEnd }
  let p := { p with tCounter := p.tCounter + 1 }
  let p := { p with tInterval := c.deltaUs p.tIntervalBegin tEnd }
  if p.tInterval ≥ p.interval then
    if p.tCounter > 0 then
      let out := p.tAccum / p.tCounter
      (some out, { p.writeOut own out with tCounter := 0, tAccum := 0, tIntervalBegin := tEnd })
    else
      (some 0, (p.writeOut own 0).reset clock)
  else (none, p)

/-! ## Runs -/

inductive Op where
  | begin
  | endTo (own : Bool)
  | setInterval (interval : Int64)
  | reset

/-- A call of `End`: when its sample began, when it ended, the interval and the number of samples at
that time, and what was reported, if anything. -/
structure Sample where
  start : Int64
  stop : Int64
  interval : Int64
  count : Int64
  out : Option Int64

/-- What happened to a timer: when it was made or last reset, when the last sample began, the
interval that was last set, and the samples since. -/
structure History where
  origin : Int64
  begun : Int64
  interval : Int64
  samples : List Sample

/-- A call, with what it reports. -/
def exec (p : PerfTimerInt) : Op → Option Int64 × PerfTimerInt
  | .begin => (none, p.begin clock)
  | .endTo own => p.endTo c clock own
  | .setInterval interval => (none, p.setInterval interval)
  | .reset => (none, p.reset clock)

/-- What a call on the timer `p` that reported `out` adds to the history. -/
def History.exec (p : PerfTimerInt) (h : History) (out : Option Int64) : Op → History
  | .begin => { h with begun := clock p.reading }
  | .endTo _ => { h with samples := h.samples ++
      [⟨h.begun, clock p.reading, h.interval, p.tCounter + 1, out⟩] }
  | .setInterval interval => { h with interval := interval }
  | .reset => { h with origin := clock p.reading, samples := [] }

/-- A new timer. -/
def History.new (interval : Int64) : History := ⟨clock 0, 0, interval, []⟩

/-- Calls one after another. -/
def run : PerfTimerInt × History → List Op → PerfTimerInt × History
  | r, [] => r
  | (p, h), op :: ops =>
    let r := p.exec c clock op
    run (r.2, h.exec clock p r.1 op) ops

/-- Every `End` has its `Begin`; the flag says whether there is one without its `End`. -/
def Paired : Bool → List Op → Prop
  | _, [] => True
  | false, .begin :: ops => Paired true ops
  | true, .begin :: _ => False
  | true, .endTo _ :: ops => Paired false ops
  | false, .endTo _ :: _ => False
  | b, _ :: ops => Paired b ops

/-- The products and sums of `End` fit in 64 bits. -/
structure EndFits (p : PerfTimerInt) : Prop where
  duration : Fits64 (((clock p.reading).toInt - p.tStart.toInt) * 1000000)
  window : Fits64 (((clock p.reading).toInt - p.tIntervalBegin.toInt) * 1000000)
  accum : Fits64 (p.tAccum.toInt + c.elapsed p.tStart (clock p.reading))
  counter : Fits64 (p.tCounter.toInt + 1)

/-- No call of `End` overflows. -/
def NoOverflow : PerfTimerInt → List Op → Prop
  | _, [] => True
  | p, .endTo own :: ops => EndFits c clock p ∧ NoOverflow (p.exec c clock (.endTo own)).2 ops
  | p, op :: ops => NoOverflow (p.exec c clock op).2 ops

/-! ## Windows -/

/-- The time a sample took. -/
def Sample.duration (s : Sample) : ℤ := c.elapsed s.start s.stop

/-- Samples that came before the interval had passed since `begun`. -/
def Waits (begun : Int64) (samples : List Sample) : Prop :=
  ∀ s ∈ samples, s.out = none ∧ c.elapsed begun s.stop < s.interval.toInt

/-- A window that was reported: samples that come too early, and a last one that does not. -/
structure Window where
  samples : List Sample
  last : Sample

namespace Window

def all (w : Window) : List Sample := w.samples ++ [w.last]

/-- The window starts at `begun`, and its last sample reports the average. -/
structure Reports (begun : Int64) (w : Window) : Prop where
  waits : Waits c begun w.samples
  due : w.last.interval.toInt ≤ c.elapsed begun w.last.stop
  average : ∃ out, w.last.out = some out ∧
    out.toInt = (w.all.map (Sample.duration c)).sum / w.all.length

end Window

/-- Windows one after another, from `begun` to `next`. -/
def Chain : Int64 → List Window → Int64 → Prop
  | begun, [], next => begun = next
  | begun, w :: ws, next => w.Reports c begun ∧ Chain w.last.stop ws next

variable {c clock} {p : PerfTimerInt} {h : History} {ws : List Window} {cur : List Sample}

theorem Chain.snoc {begun next : Int64} {w : Window} (hc : Chain c begun ws next)
    (hw : w.Reports c next) : Chain c begun (ws ++ [w]) w.last.stop := by
  induction ws generalizing begun with
  | nil =>
    cases hc
    exact ⟨hw, rfl⟩
  | cons w' ws ih => exact ⟨hc.1, ih hc.2⟩

/-! ## `End` -/

/-- The three branches of `End`. -/
theorem endTo_eq (c : PerfCounter) (clock : ℕ → Int64) (own : Bool) (p : PerfTimerInt) :
    p.endTo c clock own =
      let p' := { p with
        tCounter := p.tCounter + 1
        tAccum := p.tAccum + c.deltaUs p.tStart (clock p.reading)
        tInterval := c.deltaUs p.tIntervalBegin (clock p.reading)
        reading := p.reading + 1 }
      if p.interval ≤ c.deltaUs p.tIntervalBegin (clock p.reading) then
        if 0 < p.tCounter + 1 then
          let out := (p.tAccum + c.deltaUs p.tStart (clock p.reading)) / (p.tCounter + 1)
          (some out,
            { p'.writeOut own out with
              tCounter := 0, tAccum := 0, tIntervalBegin := clock p.reading })
        else (some 0, (p'.writeOut own 0).reset clock)
      else (none, p') :=
  rfl

theorem endTo_of_due (own : Bool)
    (hdue : p.interval ≤ c.deltaUs p.tIntervalBegin (clock p.reading))
    (hcount : 0 < p.tCounter + 1) {out : Int64}
    (hout : (p.tAccum + c.deltaUs p.tStart (clock p.reading)) / (p.tCounter + 1) = out) :
    p.endTo c clock own = (some out, { p with
      tIntervalBegin := clock p.reading
      tCounter := 0
      tAccum := 0
      tInterval := c.deltaUs p.tIntervalBegin (clock p.reading)
      tLast := if own then out else p.tLast
      reading := p.reading + 1 }) := by
  subst hout
  rw [endTo_eq]
  dsimp only
  rw [if_pos hdue, if_pos hcount]
  cases own <;> rfl

theorem endTo_of_early (own : Bool)
    (hearly : ¬ p.interval ≤ c.deltaUs p.tIntervalBegin (clock p.reading)) :
    p.endTo c clock own = (none, { p with
      tCounter := p.tCounter + 1
      tAccum := p.tAccum + c.deltaUs p.tStart (clock p.reading)
      tInterval := c.deltaUs p.tIntervalBegin (clock p.reading)
      reading := p.reading + 1 }) := by
  rw [endTo_eq]
  exact if_neg hearly

/-- The test of the interval. -/
theorem isSome_endTo (c : PerfCounter) (clock : ℕ → Int64) (own : Bool) (p : PerfTimerInt) :
    (p.endTo c clock own).1.isSome ↔
      p.interval ≤ c.deltaUs p.tIntervalBegin (clock p.reading) := by
  rw [endTo_eq]
  split_ifs with hdue <;> simp [hdue]

/-- The invariant of the timer: `ws` are the windows that were reported, `cur` is the one that was
not, and the members say how many samples it has and how long they took. -/
structure Tracks (c : PerfCounter) (clock : ℕ → Int64) (opened : Bool) (p : PerfTimerInt)
    (h : History) (ws : List Window) (cur : List Sample) : Prop where
  samples : h.samples = ws.flatMap Window.all ++ cur
  chain : Chain c h.origin ws p.tIntervalBegin
  waits : Waits c p.tIntervalBegin cur
  counter : p.tCounter.toInt = cur.length
  accum : p.tAccum.toInt = (cur.map (Sample.duration c)).sum
  durations : ∀ s ∈ cur, 0 ≤ s.duration c
  divisors : ∀ s ∈ h.samples, 0 < s.count.toInt
  interval : p.interval = h.interval
  begun : p.tStart = h.begun
  start : opened → ∃ i < p.reading, p.tStart = clock i
  window : ∃ i < p.reading, p.tIntervalBegin = clock i

theorem tracks_new (c : PerfCounter) (clock : ℕ → Int64) (interval : Int64) :
    Tracks c clock false (new clock interval) (.new clock interval) [] [] where
  samples := rfl
  chain := rfl
  waits := nofun
  counter := rfl
  accum := rfl
  durations := nofun
  divisors := nofun
  interval := rfl
  begun := rfl
  start := nofun
  window := ⟨0, Nat.one_pos, rfl⟩

namespace Tracks

variable {opened : Bool}

theorem begin (ht : Tracks c clock opened p h ws cur) :
    Tracks c clock true (p.begin clock) (h.exec clock p none .begin) ws cur where
  samples := ht.samples
  chain := ht.chain
  waits := ht.waits
  counter := ht.counter
  accum := ht.accum
  durations := ht.durations
  divisors := ht.divisors
  interval := ht.interval
  begun := rfl
  start := fun _ => ⟨p.reading, Nat.lt_succ_self _, rfl⟩
  window :=
    have ⟨i, hi, hclock⟩ := ht.window
    ⟨i, Nat.lt_succ_of_lt hi, hclock⟩

theorem setInterval (ht : Tracks c clock opened p h ws cur) (interval : Int64) :
    Tracks c clock opened (p.setInterval interval) (h.exec clock p none (.setInterval interval))
      ws cur :=
  { ht with interval := rfl }

theorem reset (ht : Tracks c clock opened p h ws cur) :
    Tracks c clock opened (p.reset clock) (h.exec clock p none .reset) [] [] where
  samples := rfl
  chain := rfl
  waits := nofun
  counter := rfl
  accum := rfl
  durations := nofun
  divisors := nofun
  interval := ht.interval
  begun := ht.begun
  start := fun hopen =>
    have ⟨i, hi, hclock⟩ := ht.start hopen
    ⟨i, Nat.lt_succ_of_lt hi, hclock⟩
  window := ⟨p.reading, Nat.lt_succ_self _, rfl⟩

theorem counter_nonneg (ht : Tracks c clock opened p h ws cur) : 0 ≤ p.tCounter.toInt := by
  rw [ht.counter]
  exact Int.natCast_nonneg _

theorem accum_nonneg (ht : Tracks c clock opened p h ws cur) : 0 ≤ p.tAccum.toInt := by
  rw [ht.accum]
  exact List.sum_nonneg (List.forall_mem_map.2 ht.durations)

/-- The window that ends with the sample `last` reports its average. -/
theorem reports (ht : Tracks c clock opened p h ws cur) {last : Sample} {out total count : Int64}
    (hdue : last.interval.toInt ≤ c.elapsed p.tIntervalBegin last.stop)
    (hlast : last.out = some out) (hout : total / count = out)
    (htotal : total.toInt = p.tAccum.toInt + last.duration c) (hnonneg : 0 ≤ last.duration c)
    (hcount : count.toInt = p.tCounter.toInt + 1) :
    Window.Reports c p.tIntervalBegin ⟨cur, last⟩ := by
  have haccum := ht.accum_nonneg
  have hcounter := ht.counter_nonneg
  refine ⟨ht.waits, hdue, out, hlast, ?_⟩
  rw [← hout, toInt_div_of_nonneg (by omega) (by omega), htotal, hcount, ht.accum, ht.counter]
  simp [Window.all]

/-- **A call of `End`** goes on with the window, or reports it. -/
theorem endTo (hf : 0 < c.perfFreq.toInt)
    (hclock : ∀ i j, i ≤ j → (clock i).toInt ≤ (clock j).toInt)
    (ht : Tracks c clock true p h ws cur) (hfits : EndFits c clock p) (own : Bool) :
    ∃ ws' cur', Tracks c clock false (p.exec c clock (.endTo own)).2
      (h.exec clock p (p.exec c clock (.endTo own)).1 (.endTo own)) ws' cur' := by
  have hexec : p.exec c clock (.endTo own) = p.endTo c clock own := rfl
  obtain ⟨i, hi, hstart⟩ := ht.start rfl
  obtain ⟨j, hj, hwindow⟩ := ht.window
  have hstartLe : p.tStart.toInt ≤ (clock p.reading).toInt := hstart ▸ hclock i p.reading hi.le
  have hwindowLe : p.tIntervalBegin.toInt ≤ (clock p.reading).toInt :=
    hwindow ▸ hclock j p.reading hj.le
  have hduration := PerfCounter.deltaUs_of_fits hf hstartLe hfits.duration
  have hpassed := PerfCounter.deltaUs_of_fits hf hwindowLe hfits.window
  have haccum : (p.tAccum + c.deltaUs p.tStart (clock p.reading)).toInt =
      p.tAccum.toInt + c.elapsed h.begun (clock p.reading) := by
    rw [← ht.begun, ← hduration]
    exact Fits64.toInt_add (hduration.symm ▸ hfits.accum)
  have hcounter : (p.tCounter + 1).toInt = p.tCounter.toInt + 1 := Fits64.toInt_add hfits.counter
  have hnonneg := PerfCounter.elapsed_nonneg hf hstartLe
  rw [ht.begun] at hnonneg
  have hcountPos : 0 < (p.tCounter + 1).toInt := by
    have hpos := ht.counter_nonneg
    omega
  by_cases hdue : p.interval ≤ c.deltaUs p.tIntervalBegin (clock p.reading)
  · -- The sample is the last of its window.
    generalize hout : (p.tAccum + c.deltaUs p.tStart (clock p.reading)) / (p.tCounter + 1) = out
    rw [hexec, endTo_of_due own hdue (Int64.lt_iff_toInt_lt.2 hcountPos) hout]
    rw [Int64.le_iff_toInt_le, hpassed, ht.interval] at hdue
    have hreports : Window.Reports c p.tIntervalBegin
        ⟨cur, ⟨h.begun, clock p.reading, h.interval, p.tCounter + 1, some out⟩⟩ :=
      ht.reports hdue rfl hout haccum hnonneg hcounter
    refine ⟨ws ++ [⟨cur, ⟨h.begun, clock p.reading, h.interval, p.tCounter + 1, some out⟩⟩], [], ?_⟩
    exact {
      samples := by simp [History.exec, ht.samples, Window.all]
      chain := ht.chain.snoc hreports
      waits := nofun
      counter := rfl
      accum := rfl
      durations := nofun
      divisors := List.forall_mem_append.2 ⟨ht.divisors, List.forall_mem_singleton.2 hcountPos⟩
      interval := ht.interval
      begun := ht.begun
      start := nofun
      window := ⟨p.reading, Nat.lt_succ_self _, rfl⟩ }
  · rw [hexec, endTo_of_early own hdue]
    have hearly : c.elapsed p.tIntervalBegin (clock p.reading) < h.interval.toInt := by
      rw [← hpassed, ← ht.interval]
      exact not_le.1 fun hle => hdue (Int64.le_iff_toInt_le.2 hle)
    refine ⟨ws, cur ++ [⟨h.begun, clock p.reading, h.interval, p.tCounter + 1, none⟩], ?_⟩
    exact {
      samples := by simp [History.exec, ht.samples]
      chain := ht.chain
      waits := List.forall_mem_append.2 ⟨ht.waits, List.forall_mem_singleton.2 ⟨rfl, hearly⟩⟩
      counter := by
        rw [hcounter, ht.counter]
        simp
      accum := by
        rw [haccum, ht.accum]
        simp [Sample.duration]
      durations := List.forall_mem_append.2
        ⟨ht.durations, List.forall_mem_singleton.2 hnonneg⟩
      divisors := List.forall_mem_append.2 ⟨ht.divisors, List.forall_mem_singleton.2 hcountPos⟩
      interval := ht.interval
      begun := ht.begun
      start := nofun
      window := ⟨j, Nat.lt_succ_of_lt hj, hwindow⟩ }

end Tracks

/-- **Runs keep track.** -/
theorem tracks_run (hf : 0 < c.perfFreq.toInt)
    (hclock : ∀ i j, i ≤ j → (clock i).toInt ≤ (clock j).toInt) {opened : Bool} (ops : List Op)
    (ht : Tracks c clock opened p h ws cur) (hpaired : Paired opened ops)
    (hfits : NoOverflow c clock p ops) :
    ∃ opened' ws' cur', Tracks c clock opened' (run c clock (p, h) ops).1
      (run c clock (p, h) ops).2 ws' cur' := by
  induction ops generalizing opened p h ws cur with
  | nil => exact ⟨opened, ws, cur, ht⟩
  | cons op ops ih =>
    cases op with
    | begin =>
      cases opened with
      | false => exact ih ht.begin hpaired hfits
      | true => exact hpaired.elim
    | endTo own =>
      cases opened with
      | false => exact hpaired.elim
      | true =>
        obtain ⟨ws', cur', ht'⟩ := ht.endTo hf hclock hfits.1 own
        exact ih ht' hpaired hfits.2
    | setInterval interval => exact ih (ht.setInterval interval) hpaired hfits
    | reset => exact ih ht.reset hpaired hfits

/-- **Every sample is counted once**, in the window that the first sample after the interval
reports. -/
theorem end_reports (hf : 0 < c.perfFreq.toInt)
    (hclock : ∀ i j, i ≤ j → (clock i).toInt ≤ (clock j).toInt) (interval : Int64) (ops : List Op)
    (hpaired : Paired false ops) (hfits : NoOverflow c clock (new clock interval) ops) :
    let h := (run c clock (new clock interval, .new clock interval) ops).2
    ∃ ws cur begun, h.samples = ws.flatMap Window.all ++ cur ∧ Chain c h.origin ws begun ∧
      Waits c begun cur ∧ ∀ s ∈ h.samples, 0 < s.count.toInt := by
  intro h
  obtain ⟨_, ws, cur, ht⟩ := tracks_run hf hclock ops (tracks_new c clock interval) hpaired hfits
  exact ⟨ws, cur, _, ht.samples, ht.chain, ht.waits, ht.divisors⟩

/-- A clock that stands still after nine ticks. -/
def nineTicks (i : ℕ) : Int64 := Int64.ofNat (min i 9)

theorem nineTicks_mono (i j : ℕ) (h : i ≤ j) : (nineTicks i).toInt ≤ (nineTicks j).toInt := by
  rw [nineTicks, nineTicks, Int64.toInt_ofNat_of_lt (by omega), Int64.toInt_ofNat_of_lt (by omega)]
  omega

theorem end_reports_sample :
    let h := (run ⟨1000000⟩ nineTicks (new nineTicks 3, .new nineTicks 3)
      [.begin, .endTo false, .begin, .endTo true]).2
    ∃ ws cur begun, h.samples = ws.flatMap Window.all ++ cur ∧ Chain ⟨1000000⟩ h.origin ws begun ∧
      Waits ⟨1000000⟩ begun cur ∧ ∀ s ∈ h.samples, 0 < s.count.toInt :=
  end_reports (by decide) nineTicks_mono 3 [.begin, .endTo false, .begin, .endTo true] trivial
    ⟨⟨by decide, by decide, by decide, by decide⟩, ⟨by decide, by decide, by decide, by decide⟩,
      trivial⟩

end PerfTimerInt

end SseExt
