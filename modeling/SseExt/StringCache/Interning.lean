import SseExt.StringCache.FixedString

/-!
# Interning: identity and order of `fixed_string`

Two objects are equal when they share an entry. Over any history this is case-insensitive
equality of the texts they were built from (`interning`), as long as those contain no NUL byte.

The order operators compare C strings. For texts with a NUL byte inside, they stop there while
equality goes on to the length and the hash, so two objects can be neither equal nor ordered.
`orderAgrees_iff` says for which pairs of texts order and equality agree.
-/

namespace SseExt

namespace Cache

/-! ## Observers -/

/-- `fixed_string::get`: the text of the entry. -/
def get (s : Cache) (a : Obj) : Option Bytes := (s.pool.mData (s.objs.ref a)).map IcaseKey.value

/-- `fixed_string::hash` -/
def hash (s : Cache) (a : Obj) : Option UInt64 :=
  (s.pool.mData (s.objs.ref a)).map IcaseKey.hash

/-- `fixed_string::empty` -/
def empty (s : Cache) (a : Obj) : Bool := s.objs.ref a = s.pool.icaseEmpty

/-- `operator==` -/
def eq (s : Cache) (a b : Obj) : Bool := s.objs.ref a = s.objs.ref b

/-- `hash::stricmp(a_lhs.c_str(), a_rhs.c_str())`, which the order operators compare with zero. -/
def cmp (s : Cache) (a b : Obj) : Option Int := do
  stricmp (cStr (← s.get a)) (cStr (← s.get b))

/-- `operator<`, `operator>`, `operator>=`, `operator<=` -/
def lt (s : Cache) (a b : Obj) : Bool := (s.cmp a b).any (· < 0)
def gt (s : Cache) (a b : Obj) : Bool := (s.cmp a b).any (· > 0)
def ge (s : Cache) (a b : Obj) : Bool := (s.cmp a b).any (· ≥ 0)
def le (s : Cache) (a b : Obj) : Bool := (s.cmp a b).any (· ≤ 0)

/-- The text each object was last built from in a history from the empty cache. -/
def builtFrom (ops : List Op) : Contents := init.runContents (fun _ => []) ops

/-! ## Identity -/

section

variable {s : Cache} {c : Contents} {a b : Obj}

/-- Sharing an entry is equality of the texts' keys. -/
theorem eq_iff (hi : Inv s c) (ha : a ∈ s.objs.live) (hb : b ∈ s.objs.live) :
    s.eq a b ↔ (IcaseKey.ofText (c a)).eq (IcaseKey.ofText (c b)) := by
  obtain ⟨k, hk, hka⟩ := hi.held a ha
  obtain ⟨l, hl, hlb⟩ := hi.held b hb
  unfold eq
  rw [decide_eq_true_iff]
  constructor
  · intro h
    rw [h, hl, Option.some.injEq] at hk
    subst hk
    exact IcaseKey.eq_trans hka (IcaseKey.eq_symm hlb)
  · intro h
    exact hi.counts.wf.distinct hk hl
      (IcaseKey.eq_trans (IcaseKey.eq_symm hka) (IcaseKey.eq_trans h hlb))

/-- The text an object reads back agrees with the one it was built from. -/
theorem get_spec (hi : Inv s c) (ha : a ∈ s.objs.live) :
    ∃ t, s.get a = some t ∧ s.hash a = some (computeHash (c a)) ∧ t.length = (c a).length ∧
      foldStr (cPart t) = foldStr (cPart (c a)) ∧ (NulFree (c a) → foldStr t = foldStr (c a)) := by
  obtain ⟨k, hk, heq⟩ := hi.held a ha
  obtain ⟨hhash, hlen, hfold⟩ := IcaseKey.eq_iff.1 heq
  refine ⟨k.value, by simp [get, hk], by simp [Cache.hash, hk, ← hhash, IcaseKey.ofText],
    hlen.symm, hfold.symm, fun hn => ?_⟩
  have hkey : (IcaseKey.ofText (c a)).eq (IcaseKey.ofText k.value) := by
    rwa [IcaseKey.eq_ofText_value (hi.counts.wf.hashed hk)]
  exact ((IcaseKey.eq_iff_foldStr hn).1 hkey).symm

/-- An object tests empty when it was built from the empty text. -/
theorem empty_iff (hi : Inv s c) (ha : a ∈ s.objs.live) : s.empty a ↔ c a = [] := by
  obtain ⟨k, hk, heq⟩ := hi.held a ha
  obtain ⟨e, he, hev⟩ := InvBut.held_empty hi.counts
  unfold empty
  rw [decide_eq_true_iff]
  constructor
  · intro h
    rw [h, he, Option.some.injEq] at hk
    subst hk
    have hlen := (IcaseKey.eq_iff.1 (IcaseKey.eq_trans heq (IcaseKey.eq_symm hev))).2.1
    exact List.eq_nil_of_length_eq_zero hlen
  · intro h
    rw [h] at heq
    exact hi.counts.wf.distinct hk he (IcaseKey.eq_trans (IcaseKey.eq_symm heq) hev)

end

theorem inv_run {ops : List Op} {s : Cache} (hrun : init.run ops = .ok s) :
    Inv s (builtFrom ops) := by
  have h := run_spec (inv_init fun _ => []) ops
  rw [hrun] at h
  exact h

/-- **Interning is case-insensitive identity.** After any history, live objects built from a
NUL-free text `t` and a text `u` are equal exactly when the texts have one length and fold to the
same bytes; then their hashes agree. The text read back is the one given up to folding, and the
object is empty exactly when the text is. -/
theorem interning {ops : List Op} {s : Cache} (hrun : init.run ops = .ok s) {a b : Obj}
    (ha : a ∈ s.objs.live) (hb : b ∈ s.objs.live) {t u : Bytes} (hta : builtFrom ops a = t)
    (hub : builtFrom ops b = u) (ht : NulFree t) :
    (s.eq a b ↔ t.length = u.length ∧ foldStr t = foldStr u) ∧
      (s.eq a b → (s.hash a).isSome ∧ s.hash a = s.hash b) ∧
      (∃ v, s.get a = some v ∧ v.length = t.length ∧ foldStr v = foldStr t) ∧
      (s.empty a ↔ t = []) := by
  have hi := inv_run hrun
  subst hta hub
  obtain ⟨v, hv, hhash, hlen, -, hfold⟩ := get_spec hi ha
  refine ⟨?_, fun h => ?_, ⟨v, hv, hlen, hfold ht⟩, empty_iff hi ha⟩
  · rw [eq_iff hi ha hb, IcaseKey.eq_iff_foldStr ht]
    exact ⟨fun h => ⟨length_eq_of_foldStr h, h⟩, And.right⟩
  · refine ⟨by rw [hhash]; rfl, ?_⟩
    unfold Cache.hash
    rw [show s.objs.ref a = s.objs.ref b by simpa [eq] using h]

/-- Two spellings of one word with a high byte, and a copy. -/
def twoSpellings : List Op :=
  [.ctorString 0 (.text [0x63, 0xE9]), .ctorCStr 1 (some (.text [0x43, 0xC9])), .ctorCopy 2 0]

theorem interning_twoSpellings : ∃ s, init.run twoSpellings = .ok s ∧
    (s.eq 2 1 ↔ [(0x63 : UInt8), 0xE9].length = [(0x43 : UInt8), 0xC9].length ∧
      foldStr [0x63, 0xE9] = foldStr [0x43, 0xC9]) :=
  ⟨_, rfl, (interning (show init.run twoSpellings = .ok _ from rfl) (by decide) (by decide)
    (by decide) (by decide) (by decide)).1⟩

/-! ## Order -/

/-- Order and equality agree on two objects: exactly one of `<`, `==`, `>` holds, and `<=` both
ways is `==`. -/
def OrderAgrees (s : Cache) (a b : Obj) : Prop :=
  ((s.lt a b ∧ ¬ s.eq a b ∧ ¬ s.gt a b) ∨ (¬ s.lt a b ∧ s.eq a b ∧ ¬ s.gt a b) ∨
    (¬ s.lt a b ∧ ¬ s.eq a b ∧ s.gt a b)) ∧
  (s.le a b ∧ s.le b a ↔ s.eq a b)

instance (s : Cache) (a b : Obj) : Decidable (OrderAgrees s a b) := by
  unfold OrderAgrees; infer_instance

section

variable {s : Cache} {c : Contents} {a b : Obj}

/-- The comparison of two live objects is that of the folded C parts of their texts. -/
theorem cmp_eq (hi : Inv s c) (ha : a ∈ s.objs.live) (hb : b ∈ s.objs.live) :
    s.cmp a b = some (firstDiff (foldStr (cPart (c a))) (foldStr (cPart (c b)))) := by
  obtain ⟨t, ht, -, -, hft, -⟩ := get_spec hi ha
  obtain ⟨u, hu, -, -, hfu, -⟩ := get_spec hi hb
  simp [cmp, ht, hu, stricmp_cStr, hft, hfu]

theorem cmp_swap (s : Cache) (a b : Obj) : s.cmp b a = (s.cmp a b).map (- ·) := by
  unfold cmp
  cases s.get a with
  | none => cases s.get b <;> rfl
  | some t =>
    cases s.get b with
    | none => rfl
    | some u => exact stricmp_swap (cStr t) (cStr u)

/-- When the comparison is `n`, order and equality agree exactly if `==` says what `n = 0` says. -/
theorem orderAgrees_of_cmp {n : Int} (h : s.cmp a b = some n) :
    OrderAgrees s a b ↔ (n = 0 ↔ s.eq a b) := by
  have hswap : s.cmp b a = some (-n) := by rw [cmp_swap, h]; rfl
  simp only [OrderAgrees, lt, gt, le, h, hswap, Option.any_some, decide_eq_true_eq]
  cases s.eq a b with
  | true =>
    simp only [not_true_eq_false, false_and, and_false, true_and, false_or, or_false, iff_true]
    omega
  | false =>
    simp only [Bool.false_eq_true, not_false_eq_true, true_and, false_and, and_false, false_or,
      iff_false]
    omega

end

/-- **Where order and equality agree.** After any history, on live objects built from `t` and `u`
they agree exactly when the texts differ, after folding, before the first NUL, or else have the
same length and hash. -/
theorem orderAgrees_iff {ops : List Op} {s : Cache} (hrun : init.run ops = .ok s) {a b : Obj}
    (ha : a ∈ s.objs.live) (hb : b ∈ s.objs.live) {t u : Bytes} (hta : builtFrom ops a = t)
    (hub : builtFrom ops b = u) :
    OrderAgrees s a b ↔ (foldStr (cPart t) = foldStr (cPart u) →
      t.length = u.length ∧ computeHash t = computeHash u) := by
  have hi := inv_run hrun
  subst hta hub
  rw [orderAgrees_of_cmp (cmp_eq hi ha hb), eq_iff hi ha hb, IcaseKey.eq_iff,
    firstDiff_eq_zero (nulFree_foldStr (nulFree_cPart _)) (nulFree_foldStr (nulFree_cPart _))]
  constructor
  · intro h hf
    obtain ⟨hhash, hlen, -⟩ := h.1 hf
    exact ⟨hlen, hhash⟩
  · intro h
    exact ⟨fun hf => ⟨(h hf).2, (h hf).1, hf⟩, fun ⟨_, _, hf⟩ => hf⟩

theorem orderAgrees_twoSpellings : ∃ s, init.run twoSpellings = .ok s ∧
    (OrderAgrees s 0 1 ↔ (foldStr (cPart [0x63, 0xE9]) = foldStr (cPart [0x43, 0xC9]) →
      [(0x63 : UInt8), 0xE9].length = [(0x43 : UInt8), 0xC9].length ∧
        computeHash [0x63, 0xE9] = computeHash [0x43, 0xC9])) :=
  ⟨_, rfl, orderAgrees_iff (show init.run twoSpellings = .ok _ from rfl) (by decide) (by decide)
    (by decide) (by decide)⟩

/-- `"a"` and `"a\0"`: different lengths, hence different entries, but equal C strings. -/
theorem order_disagrees : ∃ s,
    init.run [.ctorString 0 (.text [0x61]), .ctorString 1 (.text [0x61, 0])] = .ok s ∧
      0 ∈ s.objs.live ∧ 1 ∈ s.objs.live ∧ ¬ OrderAgrees s 0 1 :=
  ⟨_, rfl, by decide, by decide, by decide⟩

/-- Texts without NUL bytes are always ordered as they are equal. -/
theorem orderAgrees_of_nulFree {ops : List Op} {s : Cache} (hrun : init.run ops = .ok s)
    {a b : Obj} (ha : a ∈ s.objs.live) (hb : b ∈ s.objs.live) (hta : NulFree (builtFrom ops a))
    (hub : NulFree (builtFrom ops b)) : OrderAgrees s a b := by
  have hi := inv_run hrun
  rw [orderAgrees_of_cmp (cmp_eq hi ha hb), eq_iff hi ha hb, IcaseKey.eq_iff_foldStr hta,
    firstDiff_eq_zero (nulFree_foldStr (nulFree_cPart _)) (nulFree_foldStr (nulFree_cPart _)),
    hta.cPart_eq, hub.cPart_eq]

end Cache

end SseExt
