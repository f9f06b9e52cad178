import Mathlib
import SseExt.StringCache.Interning

/-!
# `data_pool::get_stats`

The pool adds up its entries: how many there are, how often they are used, and how much memory they
take. What the compiler and the string class decide, the sizes of types and the capacity of the
string in an entry, are parameters (`Sizes`); the ratio, a floating-point number, is left out.

**Theorem (`getStats_eq`).** After any history the numbers are those of the live objects: there is
one entry for each text in use, up to case, and one for the empty text; `total_fixed_count` is the
number of the objects whose text is not empty, which take eight bytes each; and without the cache
each of these would have a string of its own, which is counted like the pooled one. Objects with the
empty text count for nothing.
-/

namespace SseExt

/-- What the memory of entries and strings depends on. -/
structure Sizes where
  sizeofKey : ℕ
  sizeofString : ℕ
  capacity : Bytes → ℕ

/-- `stats_t` -/
structure Stats where
  count : ℕ
  mapUsage : ℕ
  keyDataUsage : ℕ
  stringUsage : ℕ
  totalFixedCount : ℕ
  totalFixedSize : ℕ
  estimatedUncachedUsage : ℕ
  total : ℕ

namespace DataPool

/-- The entries, in the order of their addresses. -/
def entries (p : DataPool) : List IcaseKey := (List.range p.fresh).filterMap p.mData

/-- `sizeof(stl::fixed_string)` -/
def sizeofFixedString : ℕ := 8

/-- What an entry adds to the statistics. -/
def addEntry (z : Sizes) (result : Stats) (entry : IcaseKey) : Stats :=
  let string := z.capacity entry.value + z.sizeofString
  { result with
    keyDataUsage := result.keyDataUsage + z.sizeofKey
    stringUsage := result.stringUsage + string
    totalFixedCount := result.totalFixedCount + entry.refcount
    totalFixedSize := result.totalFixedSize + entry.refcount * sizeofFixedString
    estimatedUncachedUsage := result.estimatedUncachedUsage + string * entry.refcount }

/-- `get_stats` -/
def getStats (z : Sizes) (p : DataPool) : Stats :=
  let result := p.entries.foldl (addEntry z) ⟨p.entries.length, 0, 0, 0, 0, 0, 0, 0⟩
  { result with
    total := result.mapUsage + result.keyDataUsage + result.stringUsage + result.totalFixedSize }

/-! ## Sums over the entries -/

variable {z : Sizes} {p : DataPool}

/-- The fields are sums. -/
theorem foldl_addEntry (l : List IcaseKey) (st : Stats) :
    l.foldl (addEntry z) st =
      { st with
        keyDataUsage := st.keyDataUsage + (l.map fun _ => z.sizeofKey).sum
        stringUsage := st.stringUsage + (l.map fun k => z.capacity k.value + z.sizeofString).sum
        totalFixedCount := st.totalFixedCount + (l.map IcaseKey.refcount).sum
        totalFixedSize := st.totalFixedSize +
          (l.map fun k => k.refcount * sizeofFixedString).sum
        estimatedUncachedUsage := st.estimatedUncachedUsage +
          (l.map fun k => (z.capacity k.value + z.sizeofString) * k.refcount).sum } := by
  induction l generalizing st with
  | nil => rfl
  | cons k l ih =>
    rw [List.foldl_cons, ih]
    simp only [addEntry, List.map_cons, List.sum_cons, Nat.add_assoc]

/-- **The statistics as sums.** -/
theorem getStats_sums (z : Sizes) (p : DataPool) :
    (p.getStats z).count = p.entries.length ∧
      (p.getStats z).keyDataUsage = (p.entries.map fun _ => z.sizeofKey).sum ∧
      (p.getStats z).stringUsage =
        (p.entries.map fun k => z.capacity k.value + z.sizeofString).sum ∧
      (p.getStats z).totalFixedCount = (p.entries.map IcaseKey.refcount).sum ∧
      (p.getStats z).totalFixedSize =
        (p.entries.map fun k => k.refcount * sizeofFixedString).sum ∧
      (p.getStats z).estimatedUncachedUsage =
        (p.entries.map fun k => (z.capacity k.value + z.sizeofString) * k.refcount).sum ∧
      (p.getStats z).total = (p.getStats z).keyDataUsage + (p.getStats z).stringUsage +
        (p.getStats z).totalFixedSize := by
  rw [getStats, foldl_addEntry]
  simp only [Nat.zero_add, and_self]

/-- A sum over the entries as a sum over addresses. -/
theorem sum_entries (p : DataPool) (f : IcaseKey → ℕ) :
    (p.entries.map f).sum = ∑ r ∈ Finset.range p.fresh, ((p.mData r).map f).getD 0 := by
  unfold entries
  induction p.fresh with
  | zero => rfl
  | succ n ih =>
    rw [List.range_succ, List.filterMap_append, List.map_append, List.sum_append, ih,
      Finset.sum_range_succ]
    cases h : p.mData n <;> simp [h]

end DataPool

namespace Cache

variable {s : Cache} {c : Contents}

/-- The objects whose text is not empty. -/
def nonempty (s : Cache) (c : Contents) : Finset Obj := s.objs.live.filter fun o => c o ≠ []

/-- What equality of entries looks at. -/
def folded (t : Bytes) : UInt64 × ℕ × Bytes := (computeHash t, t.length, foldStr (cPart t))

theorem folded_eq_iff {t u : Bytes} :
    (IcaseKey.ofText t).eq (IcaseKey.ofText u) ↔ folded t = folded u := by
  rw [IcaseKey.eq_iff, folded, folded, Prod.mk.injEq, Prod.mk.injEq]
  rfl

theorem ref_ne_iff (hi : Inv s c) {o : Obj} (ho : o ∈ s.objs.live) :
    s.objs.ref o ≠ s.pool.icaseEmpty ↔ c o ≠ [] := by
  rw [ne_eq, ne_eq, ← empty_iff hi ho, empty, decide_eq_true_iff]

/-- **Uses are objects.** What the entries add up to, weighed by their counters, is what the objects
on them add up to. -/
theorem sum_uses (hi : Inv s c) (w : Bytes → ℕ) :
    (s.pool.entries.map fun k => w k.value * k.refcount).sum =
      ∑ o ∈ s.nonempty c, w ((s.get o).getD []) := by
  have hterm (r : Ref) : ((s.pool.mData r).map fun k => w k.value * k.refcount).getD 0 =
      ∑ o ∈ (s.nonempty c).filter (fun o => s.objs.ref o = r), w ((s.get o).getD []) := by
    cases hr : s.pool.mData r with
    | none =>
      rw [Finset.filter_false_of_mem, Finset.sum_empty]
      · rfl
      · intro o ho hor
        obtain ⟨k, hk⟩ := hi.counts.valid o (Finset.mem_filter.1 ho).1
        rw [hor, hr] at hk
        cases hk
    | some k =>
      have hsum : ∀ o ∈ (s.nonempty c).filter (fun o => s.objs.ref o = r),
          w ((s.get o).getD []) = w k.value := by
        intro o ho
        rw [get, (Finset.mem_filter.1 ho).2, hr]
        rfl
      rw [Finset.sum_const_nat hsum, Nat.mul_comm]
      by_cases hempty : r = s.pool.icaseEmpty
      · have hnone : (s.nonempty c).filter (fun o => s.objs.ref o = r) = ∅ := by
          refine Finset.filter_false_of_mem fun o ho hor => ?_
          obtain ⟨hlive, hne⟩ := Finset.mem_filter.1 ho
          exact (ref_ne_iff hi hlive).2 hne (hor.trans hempty)
        have hzero : k.refcount = 0 := hi.counts.emptyCount (hempty ▸ hr)
        rw [hnone, Option.map_some, Option.getD_some, hzero, Finset.card_empty]
      · have hall : (s.nonempty c).filter (fun o => s.objs.ref o = r) =
            s.objs.live.filter fun o => s.objs.ref o = r := by
          rw [nonempty, Finset.filter_filter]
          refine Finset.filter_congr fun o ho => ⟨fun h => h.2, fun h => ⟨?_, h⟩⟩
          exact (ref_ne_iff hi ho).1 (h ▸ hempty)
        rw [hall, Option.map_some, Option.getD_some, hi.counts.counted hr hempty]
        rfl
  have hmaps : ∀ o ∈ s.nonempty c, s.objs.ref o ∈ Finset.range s.pool.fresh := by
    intro o ho
    obtain ⟨k, hk⟩ := hi.counts.valid o (Finset.mem_filter.1 ho).1
    exact Finset.mem_range.2 (DataPool.lt_fresh hi.counts.wf hk)
  rw [DataPool.sum_entries, Finset.sum_congr rfl fun r _ => hterm r,
    Finset.sum_fiberwise_of_maps_to hmaps]

/-- The addresses in use: that of the empty entry, and those of the objects. -/
theorem isSome_iff (hi : Inv s c) {r : Ref} : (s.pool.mData r).isSome ↔
    r ∈ insert s.pool.icaseEmpty ((s.nonempty c).image s.objs.ref) := by
  rw [Finset.mem_insert, Finset.mem_image]
  constructor
  · intro hr
    obtain ⟨k, hk⟩ := Option.isSome_iff_exists.1 hr
    by_cases hempty : r = s.pool.icaseEmpty
    · exact .inl hempty
    · have hpos := hi.used hk hempty hempty
      obtain ⟨o, ho⟩ := Finset.card_pos.1 hpos
      obtain ⟨hlive, href⟩ := Finset.mem_filter.1 ho
      refine .inr ⟨o, Finset.mem_filter.2 ⟨hlive, ?_⟩, href⟩
      exact (ref_ne_iff hi hlive).1 (href ▸ hempty)
  · rintro (rfl | ⟨o, ho, rfl⟩)
    · obtain ⟨k, hk, -⟩ := hi.counts.wf.empty
      rw [hk]
      rfl
    · obtain ⟨k, hk⟩ := hi.counts.valid o (Finset.mem_filter.1 ho).1
      rw [hk]
      rfl

/-- Two functions that tell the same objects apart have as many values. -/
theorem card_image_congr {β γ : Type*} [DecidableEq β] [DecidableEq γ] {f : Obj → β} {g : Obj → γ}
    {l : Finset Obj} (h : ∀ a ∈ l, ∀ b ∈ l, f a = f b ↔ g a = g b) :
    (l.image f).card = (l.image g).card := by
  induction l using Finset.induction_on with
  | empty => rfl
  | @insert a l ha ih =>
    have hrest := ih fun b hb b' hb' =>
      h b (Finset.mem_insert_of_mem hb) b' (Finset.mem_insert_of_mem hb')
    have hmem : f a ∈ l.image f ↔ g a ∈ l.image g := by
      rw [Finset.mem_image, Finset.mem_image]
      refine exists_congr fun b => and_congr_right fun hb => ?_
      exact h b (Finset.mem_insert_of_mem hb) a (Finset.mem_insert_self a l)
    rw [Finset.image_insert, Finset.image_insert, Finset.card_insert_eq_ite,
      Finset.card_insert_eq_ite, hrest]
    simp only [hmem]

/-- **Entries are texts.** -/
theorem length_entries (hi : Inv s c) : s.pool.entries.length =
    1 + ((s.nonempty c).image fun o => folded (c o)).card := by
  have hlen : s.pool.entries.length =
      ((Finset.range s.pool.fresh).filter fun r => (s.pool.mData r).isSome).card := by
    have hsum := DataPool.sum_entries s.pool fun _ => 1
    rw [List.map_const', List.sum_replicate_nat, Nat.mul_one] at hsum
    rw [hsum, Finset.card_filter]
    refine Finset.sum_congr rfl fun r _ => ?_
    cases s.pool.mData r <;> rfl
  have hfilter : ((Finset.range s.pool.fresh).filter fun r => (s.pool.mData r).isSome) =
      insert s.pool.icaseEmpty ((s.nonempty c).image s.objs.ref) := by
    ext r
    rw [Finset.mem_filter, ← isSome_iff hi, Finset.mem_range]
    refine ⟨And.right, fun h => ⟨?_, h⟩⟩
    obtain ⟨k, hk⟩ := Option.isSome_iff_exists.1 h
    exact DataPool.lt_fresh hi.counts.wf hk
  have hnot : s.pool.icaseEmpty ∉ (s.nonempty c).image s.objs.ref := by
    intro hmem
    obtain ⟨o, ho, href⟩ := Finset.mem_image.1 hmem
    obtain ⟨hlive, hne⟩ := Finset.mem_filter.1 ho
    exact (ref_ne_iff hi hlive).2 hne href
  have hrefs : ((s.nonempty c).image s.objs.ref).card =
      ((s.nonempty c).image fun o => folded (c o)).card := by
    refine card_image_congr fun a ha b hb => ?_
    have heq := eq_iff hi (Finset.mem_filter.1 ha).1 (Finset.mem_filter.1 hb).1
    rwa [folded_eq_iff, eq, decide_eq_true_iff] at heq
  rw [hlen, hfilter, Finset.card_insert_of_notMem hnot, hrefs, Nat.add_comm]

/-- **The statistics are those of the live objects.** -/
theorem getStats_eq (z : Sizes) {ops : List Op} (hrun : init.run ops = .ok s) :
    let live := s.nonempty (builtFrom ops)
    let st := s.pool.getStats z
    st.count = 1 + (live.image fun o => folded (builtFrom ops o)).card ∧
      st.keyDataUsage = st.count * z.sizeofKey ∧
      st.totalFixedCount = live.card ∧ st.totalFixedSize = live.card * 8 ∧
      st.estimatedUncachedUsage =
        ∑ o ∈ live, (z.capacity ((s.get o).getD []) + z.sizeofString) ∧
      st.total = st.keyDataUsage + st.stringUsage + st.totalFixedSize := by
  have hi := inv_run hrun
  obtain ⟨hcount, hkey, -, hfixed, hsize, huncached, htotal⟩ := DataPool.getStats_sums z s.pool
  have huses := sum_uses hi fun _ => 1
  have hsizes := sum_uses hi fun _ => 8
  rw [Finset.sum_const_nat fun _ _ => rfl] at huses hsizes
  simp only [Nat.one_mul, Nat.mul_one] at huses
  refine ⟨hcount.trans (length_entries hi), ?_, hfixed.trans huses, ?_, ?_, htotal⟩
  · rw [hkey, hcount, List.map_const', List.sum_replicate_nat]
  · rw [hsize, ← hsizes]
    simp only [DataPool.sizeofFixedString, Nat.mul_comm]
  · rw [huncached]
    exact sum_uses hi fun t => z.capacity t + z.sizeofString

/-- Three objects, two of them with two spellings of one text. -/
theorem getStats_twoSpellings : ∃ s, init.run twoSpellings = .ok s ∧
    (s.pool.getStats ⟨48, 32, fun t => max 15 t.length⟩).count = 2 ∧
    (s.pool.getStats ⟨48, 32, fun t => max 15 t.length⟩).totalFixedCount = 3 := by
  obtain ⟨s, hrun, hlive⟩ : ∃ s, init.run twoSpellings = .ok s ∧ s.objs.live = {0, 1, 2} :=
    ⟨_, rfl, by decide⟩
  obtain ⟨hcount, -, hfixed, -⟩ := getStats_eq ⟨48, 32, fun t => max 15 t.length⟩ hrun
  rw [nonempty, hlive] at hcount hfixed
  refine ⟨s, hrun, hcount.trans ?_, hfixed.trans ?_⟩
  · decide
  · decide

end Cache

end SseExt
