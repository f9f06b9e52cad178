import Mathlib.Data.List.Find
import Mathlib.Tactic.Common

/-!
# Hash containers

An unordered container keeps its elements in a list and searches only the bucket of the key's
hash. When equal keys have equal hashes the bucket does not matter (`find_eq`).
-/

namespace SseExt

/-- How a container finds a key: hash, equality, and the bucket of a hash among so many
elements. -/
structure HashPolicy (K : Type*) where
  hash : K → UInt64
  eq : K → K → Bool
  bucket : ℕ → UInt64 → ℕ

namespace HashPolicy

variable {K V : Type*} (H : HashPolicy K) {m : List (K × V)} {k : K} {v : V}

def find (m : List (K × V)) (k : K) : Option (K × V) :=
  m.find? fun e => H.bucket m.length (H.hash e.1) = H.bucket m.length (H.hash k) && H.eq e.1 k

/-- Insert unless there is an equal key. -/
def tryEmplace (m : List (K × V)) (k : K) (v : V) : List (K × V) :=
  match H.find m k with
  | some _ => m
  | none => m ++ [(k, v)]

variable {H}

/-- **The law of hash containers.** -/
theorem find_eq (h : ∀ e ∈ m, H.eq e.1 k → H.hash e.1 = H.hash k) :
    H.find m k = m.find? fun e => H.eq e.1 k := by
  apply List.find?_congr
  intro e he
  by_cases heq : H.eq e.1 k
  · simp [h e he heq, heq]
  · simp [heq]

theorem tryEmplace_eq (h : ∀ e ∈ m, H.eq e.1 k → H.hash e.1 = H.hash k) :
    H.tryEmplace m k v = if m.any (H.eq ·.1 k) then m else m ++ [(k, v)] := by
  unfold tryEmplace
  rw [find_eq h]
  cases hfind : m.find? fun e => H.eq e.1 k with
  | none =>
    have hany : ¬ m.any (H.eq ·.1 k) := by
      simpa using List.find?_eq_none.1 hfind
    rw [if_neg hany]
  | some e =>
    have heq : H.eq e.1 k := List.find?_some (p := fun e : K × V => H.eq e.1 k) hfind
    have hany : m.any (H.eq ·.1 k) :=
      List.any_eq_true.2 ⟨e, List.mem_of_find?_eq_some hfind, heq⟩
    rw [if_pos hany]

end HashPolicy

end SseExt
