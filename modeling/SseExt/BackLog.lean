import Mathlib.Data.List.Basic
import Mathlib.Tactic.Common

/-!
# `BackLog`

The last messages of the log, as many as `m_limit` allows. With a limit of zero, which only the
constructor can set, nothing is taken.

**Theorem (`keeps_last`).** Whatever calls are made, what is held is a suffix of the messages
accepted since the last `Clear`, it ends with the last of them, and there are never more than the
limit. Under a limit that stays the same, the suffix is as long as can be.
-/

namespace SseExt

inductive LogLevel where
  | debug
  | message
  | warning
  | error
  | fatalError

/-- `LoggerMessageEvent`, with the `prefix` that a message may have and its time. -/
structure LoggerMessageEvent (τ : Type*) where
  level : LogLevel
  ts : τ
  label : Option (List UInt8)
  message : List UInt8

namespace BackLog

/-- `BackLog::Entry` -/
structure Entry (τ : Type*) where
  data : List UInt8
  level : LogLevel
  ts : τ

/-- The constructor of an entry. -/
def Entry.ofEvent {τ : Type*} (event : LoggerMessageEvent τ) : Entry τ where
  data := event.label.getD [] ++ event.message
  level := event.level
  ts := event.ts

end BackLog

structure BackLog (τ : Type*) where
  data : List (BackLog.Entry τ)
  limit : ℕ

namespace BackLog

variable {τ : Type*}

/-- The constructor. -/
def new (limit : ℕ) : BackLog τ := ⟨[], limit⟩

/-- The loop of `trim`. -/
def trimLoop (limit : ℕ) : List (Entry τ) → List (Entry τ)
  | [] => []
  | e :: es => if (e :: es).length > limit then trimLoop limit es else e :: es

def trim (b : BackLog τ) : BackLog τ := { b with data := trimLoop b.limit b.data }

/-- `Add` -/
def add (b : BackLog τ) (event : LoggerMessageEvent τ) : BackLog τ :=
  if b.limit = 0 then b else trim { b with data := b.data ++ [.ofEvent event] }

def setLimit (b : BackLog τ) (limit : ℕ) : BackLog τ := trim { b with limit := max limit 1 }

def clear (b : BackLog τ) : BackLog τ := { b with data := [] }

inductive Op (τ : Type*) where
  | add (event : LoggerMessageEvent τ)
  | setLimit (limit : ℕ)
  | clear

def exec (b : BackLog τ) : Op τ → BackLog τ
  | .add event => b.add event
  | .setLimit limit => b.setLimit limit
  | .clear => b.clear

/-! ## What has been accepted -/

/-- The limit, the limits since the last `Clear`, and the messages accepted since then. -/
structure History (τ : Type*) where
  limit : ℕ
  limits : List ℕ
  accepted : List (Entry τ)

namespace History

def new (limit : ℕ) : History τ := ⟨limit, [limit], []⟩

/-- A message is accepted when the limit is not zero. -/
def exec (h : History τ) : Op τ → History τ
  | .add event => if h.limit ≠ 0 then { h with accepted := h.accepted ++ [.ofEvent event] } else h
  | .setLimit limit => { h with limit := max limit 1, limits := h.limits ++ [max limit 1] }
  | .clear => { h with limits := [h.limit], accepted := [] }

end History

/-! ## One call -/

variable {b : BackLog τ} {h : History τ}

/-- **`trim`** drops the oldest entries. -/
theorem trimLoop_eq (limit : ℕ) (l : List (Entry τ)) :
    trimLoop limit l = l.drop (l.length - limit) := by
  induction l with
  | nil => simp [trimLoop]
  | cons e es ih =>
    rw [trimLoop]
    split_ifs with hlen
    · have hsub : (e :: es).length - limit = (es.length - limit) + 1 := by
        rw [List.length_cons] at hlen ⊢
        omega
      rw [ih, hsub, List.drop_succ_cons]
    · rw [Nat.sub_eq_zero_of_le (Nat.not_lt.1 hlen), List.drop_zero]

/-- What is held and what has been accepted. -/
structure Keeps (b : BackLog τ) (h : History τ) : Prop where
  limit : b.limit = h.limit
  bound : b.data.length ≤ b.limit
  suffix : b.data <:+ h.accepted
  last : b.data.getLast? = h.accepted.getLast?
  current : h.limit ∈ h.limits
  full : ∀ n, (∀ l ∈ h.limits, l = n) → b.data = h.accepted.drop (h.accepted.length - n)

theorem Keeps.new (limit : ℕ) : Keeps (BackLog.new limit : BackLog τ) (.new limit) where
  limit := rfl
  bound := Nat.zero_le _
  suffix := List.nil_suffix
  last := rfl
  current := List.mem_singleton_self _
  full := fun _ _ => List.drop_nil.symm

/-- Entries dropped before and after one is added. -/
theorem drop_drop_snoc {α : Type*} (l : List α) (e : α) {n : ℕ} (m : ℕ) (hn : n ≤ l.length) :
    (l.drop n ++ [e]).drop m = (l ++ [e]).drop (n + m) := by
  rw [← List.drop_append_of_le_length hn, List.drop_drop]

theorem Keeps.add (hk : Keeps b h) (event : LoggerMessageEvent τ) :
    Keeps (b.add event) (h.exec (.add event)) := by
  unfold BackLog.add
  rw [History.exec]
  by_cases hlimit : b.limit = 0
  · rw [if_pos hlimit, if_neg (by rw [← hk.limit]; simp [hlimit])]
    exact hk
  · rw [if_neg hlimit, if_pos (hk.limit ▸ hlimit)]
    have hbound := hk.bound
    have hdata : (trim { b with data := b.data ++ [.ofEvent event] }).data =
        (b.data ++ [Entry.ofEvent event]).drop (b.data.length + 1 - b.limit) := by
      simp only [trim, trimLoop_eq, List.length_append, List.length_singleton]
    refine ⟨hk.limit, ?_, ?_, ?_, hk.current, fun n hn => ?_⟩
    · rw [hdata, List.length_drop, List.length_append, List.length_singleton]
      change _ ≤ b.limit
      omega
    · rw [hdata]
      obtain ⟨old, hold⟩ := hk.suffix
      refine (List.drop_suffix _ _).trans ⟨old, ?_⟩
      rw [← List.append_assoc, hold]
    · rw [hdata, List.getLast?_drop, List.length_append, List.length_singleton,
        if_neg (by omega), List.getLast?_append, List.getLast?_append]
      rfl
    · obtain rfl : h.limit = n := hn _ hk.current
      have hfull := hk.full _ hn
      have hlen := congrArg List.length hfull
      rw [List.length_drop] at hlen
      rw [hdata, hfull, drop_drop_snoc _ _ _ (Nat.sub_le _ _), List.length_append,
        List.length_singleton, List.length_drop, hk.limit]
      congr 1
      omega

theorem Keeps.setLimit (hk : Keeps b h) (limit : ℕ) :
    Keeps (b.setLimit limit) (h.exec (.setLimit limit)) := by
  have hdata : (b.setLimit limit).data = b.data.drop (b.data.length - max limit 1) := by
    simp only [BackLog.setLimit, trim, trimLoop_eq]
  refine ⟨rfl, ?_, ?_, ?_, List.mem_append_right _ (List.mem_singleton_self _), fun n hn => ?_⟩
  · rw [hdata, List.length_drop]
    change _ ≤ max limit 1
    omega
  · rw [hdata]
    exact (List.drop_suffix _ _).trans hk.suffix
  · rw [hdata, List.getLast?_drop]
    split_ifs with hempty
    · have hnil : b.data = [] := List.length_eq_zero_iff.1 (by omega)
      rw [← show b.data.getLast? = none by rw [hnil]; rfl]
      exact hk.last
    · exact hk.last
  · obtain rfl : max limit 1 = n := hn _ (List.mem_append_right _ (List.mem_singleton_self _))
    have hfull := hk.full _ fun l hl => hn l (List.mem_append_left _ hl)
    have hlen := congrArg List.length hfull
    rw [List.length_drop] at hlen
    rw [hdata, Nat.sub_eq_zero_of_le (by omega), List.drop_zero, hfull]
    rfl

theorem Keeps.clear (hk : Keeps b h) : Keeps b.clear (h.exec .clear) where
  limit := hk.limit
  bound := Nat.zero_le _
  suffix := List.nil_suffix
  last := rfl
  current := List.mem_singleton_self _
  full := fun _ _ => List.drop_nil.symm

/-- **One call.** -/
theorem Keeps.exec (hk : Keeps b h) (op : Op τ) : Keeps (b.exec op) (h.exec op) := by
  cases op with
  | add event => exact hk.add event
  | setLimit limit => exact hk.setLimit limit
  | clear => exact hk.clear

/-! ## Any calls -/

theorem keeps_foldl (ops : List (Op τ)) (hk : Keeps b h) :
    Keeps (ops.foldl exec b) (ops.foldl History.exec h) := by
  induction ops generalizing b h with
  | nil => exact hk
  | cons op ops ih => exact ih (hk.exec op)

/-- **The last messages are kept.** -/
theorem keeps_last (limit : ℕ) (ops : List (Op τ)) :
    let b := ops.foldl exec (new limit)
    let h := ops.foldl History.exec (.new limit)
    b.data.length ≤ b.limit ∧ b.data <:+ h.accepted ∧ b.data.getLast? = h.accepted.getLast? ∧
      ∀ n, (∀ l ∈ h.limits, l = n) → b.limit = n ∧
        b.data = h.accepted.drop (h.accepted.length - n) ∧
        b.data.length = min n h.accepted.length := by
  intro b h
  have hk : Keeps b h := keeps_foldl ops (.new limit)
  refine ⟨hk.bound, hk.suffix, hk.last, fun n hn => ⟨?_, hk.full n hn, ?_⟩⟩
  · rw [hk.limit]
    exact hn _ hk.current
  · rw [hk.full n hn, List.length_drop]
    omega

end BackLog

end SseExt
