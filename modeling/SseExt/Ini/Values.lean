import SseExt.HashContract
import SseExt.Lib.HashTable

/-!
# `INIReader`: the table of values

The parser hands every value it reads to `ValueHandler`, which enters it into a table of tables
keyed by section and name. Both are `stl::iunordered_map`s. A name that comes again keeps its
element, to which the value is appended on a line of its own.

**Theorem (`get_eq`).** After any calls of `ValueHandler` and `RemoveSection`, a section and a name
in any spelling find the values of all calls for them since the section was last removed, in order
and joined by newlines, and nothing if there were none.

Texts come from C strings (`CText`), so the keys obey the law of the containers. How they hash into
buckets, and how many buckets there are, are parameters.
-/

namespace SseExt

/-- `INIReader` -/
structure INIReader where
  values : HashTable Bytes (HashTable Bytes Bytes)

namespace INIReader

variable (bucket : ℕ → UInt64 → ℕ) (grow : ℕ → ℕ → ℕ)

/-- `stl::iunordered_map` -/
def table : HashPolicy Bytes := ⟨icaseFnv1a, iequalTo, bucket⟩

/-- The constructor. -/
def new : INIReader := ⟨.empty grow⟩

/-- `Get`, with `nullptr` as `none`. -/
def get (r : INIReader) (sec name : Bytes) : Option Bytes :=
  match r.values.find (table bucket) sec with
  | none => none
  | some it1 =>
    match it1.2.find (table bucket) name with
    | none => none
    | some it2 => some it2.2

/-- `Exists` -/
def existsName (r : INIReader) (sec name : Bytes) : Bool :=
  match r.values.find (table bucket) sec with
  | none => false
  | some it1 =>
    match it1.2.find (table bucket) name with
    | none => false
    | some _ => true

def removeSection (r : INIReader) (sec : Bytes) : INIReader :=
  ⟨r.values.erase (table bucket) sec⟩

/-- The second half of `ValueHandler`, on the table of the section. -/
def addValue (t : HashTable Bytes Bytes) (name value : Bytes) : HashTable Bytes Bytes :=
  let o := t.tryEmplace (table bucket) grow name value
  if !o.2.2 then o.1.modify o.2.1 fun old => old ++ [0x0A] ++ value else o.1

/-- `ValueHandler`, which always returns 1. -/
def valueHandler (r : INIReader) (sec name value : CText) : Int32 × INIReader :=
  let o := r.values.tryEmplace (table bucket) grow sec.text (.empty grow)
  (1, ⟨o.1.modify o.2.1 fun t => addValue bucket grow t name.text value.text⟩)

/-! ## What the calls leave -/

inductive Call where
  | valueHandler (sec name value : CText)
  | removeSection (sec : CText)

def call (r : INIReader) : Call → INIReader
  | .valueHandler sec name value => (valueHandler bucket grow r sec name value).2
  | .removeSection sec => removeSection bucket r sec.text

/-- The values for a section and a name, up to case, after one more call. -/
def collect (sec name : Bytes) (vs : List Bytes) : Call → List Bytes
  | .valueHandler sec' name' value =>
    if foldStr sec'.text = foldStr sec ∧ foldStr name'.text = foldStr name then vs ++ [value.text]
    else vs
  | .removeSection sec' => if foldStr sec'.text = foldStr sec then [] else vs

/-- The values of the calls for a section and a name since the section was last removed. -/
def valuesOf (calls : List Call) (sec name : Bytes) : List Bytes :=
  calls.foldl (collect sec name) []

/-- The values joined by newlines, if there are any. -/
def joined : List Bytes → Option Bytes
  | [] => none
  | v :: vs => some (vs.foldl (fun text v => text ++ [0x0A] ++ v) v)

theorem joined_eq_none {vs : List Bytes} : joined vs = none ↔ vs = [] := by
  cases vs <;> simp [joined]

theorem joined_snoc (vs : List Bytes) (v : Bytes) :
    joined (vs ++ [v]) =
      some (match joined vs with | none => v | some old => old ++ [0x0A] ++ v) := by
  cases vs <;> simp [joined]

/-! ## One call -/

variable {bucket grow} {r : INIReader} {t : HashTable Bytes Bytes}

theorem table_equivalence (bucket : ℕ → UInt64 → ℕ) :
    Equivalence fun a b => ((table bucket).eq a b : Prop) :=
  ⟨iequalTo_refl, iequalTo_symm, iequalTo_trans⟩

theorem law (k : CText) (k' : Bytes) (h : (table bucket).eq k.text k') :
    (table bucket).hash k.text = (table bucket).hash k' :=
  (icaseFnv_congr k.nulFree.dropLast h).1

theorem eq_iff (bucket : ℕ → UInt64 → ℕ) (k : CText) (k' : Bytes) :
    (table bucket).eq k.text k' ↔ foldStr k.text = foldStr k' :=
  k.nulFree.iequalTo_iff_foldStr

/-- Both levels are well-formed. -/
structure WF (bucket : ℕ → UInt64 → ℕ) (r : INIReader) : Prop where
  values : HashTable.WF (table bucket) r.values
  inner : ∀ e ∈ r.values.elems, HashTable.WF (table bucket) e.2

theorem get_eq_lookup (r : INIReader) (sec name : Bytes) : r.get bucket sec name =
    (r.values.lookup (table bucket) sec).bind fun t => t.lookup (table bucket) name := by
  unfold get HashTable.lookup
  cases r.values.find (table bucket) sec with
  | none => rfl
  | some it1 =>
    simp only [Option.map_some, Option.bind_some]
    cases it1.2.find (table bucket) name <;> rfl

theorem existsName_eq (r : INIReader) (sec name : Bytes) :
    r.existsName bucket sec name = (r.get bucket sec name).isSome := by
  unfold existsName get
  cases r.values.find (table bucket) sec with
  | none => rfl
  | some it1 =>
    dsimp only
    cases it1.2.find (table bucket) name <;> rfl

theorem addValue_wf (h : HashTable.WF (table bucket) t) (name : CText) (value : Bytes) :
    HashTable.WF (table bucket) (addValue bucket grow t name.text value) := by
  have hwf := h.tryEmplace grow (law name) value
  unfold addValue
  dsimp only
  split_ifs
  · exact hwf.modify _ _
  · exact hwf

/-- **A value is entered or appended.** -/
theorem lookup_addValue (h : HashTable.WF (table bucket) t) (name : CText) (value k : Bytes) :
    (addValue bucket grow t name.text value).lookup (table bucket) k =
      if foldStr name.text = foldStr k then
        some (match t.lookup (table bucket) k with
          | none => value
          | some old => old ++ [0x0A] ++ value)
      else t.lookup (table bucket) k := by
  have heq := table_equivalence bucket
  have hlookup := h.lookup_tryEmplace heq grow (law name) value k
  have hupsert := h.lookup_upsert heq grow (law name) value (fun old => old ++ [0x0A] ++ value) k
  simp only [eq_iff] at hlookup hupsert
  unfold addValue
  dsimp only
  rw [HashTable.tryEmplace_new]
  by_cases hk : foldStr name.text = foldStr k
  · rw [if_pos hk] at hlookup hupsert ⊢
    rw [h.lookup_congr heq ((eq_iff bucket name k).2 hk)]
    cases hold : t.lookup (table bucket) k with
    | none =>
      rw [hold] at hlookup
      exact hlookup
    | some old =>
      rw [hold] at hupsert
      exact hupsert
  · rw [if_neg hk] at hlookup hupsert ⊢
    split_ifs
    · exact hupsert
    · exact hlookup

theorem WF.new : (new grow).WF bucket := ⟨.empty, fun _ he => nomatch he⟩

theorem WF.valueHandler (h : r.WF bucket) (sec name value : CText) :
    (r.valueHandler bucket grow sec name value).2.WF bucket := by
  constructor
  · exact (h.values.tryEmplace grow (law sec) (.empty grow)).modify _ fun t =>
      addValue bucket grow t name.text value.text
  · exact HashTable.forall_modify (HashTable.forall_tryEmplace h.inner .empty)
      fun _ ht => addValue_wf ht name value.text

theorem WF.removeSection (h : r.WF bucket) (sec : Bytes) : (r.removeSection bucket sec).WF bucket :=
  ⟨h.values.erase sec, HashTable.forall_erase h.inner⟩

/-- **One call of the handler.** -/
theorem get_valueHandler (h : r.WF bucket) (sec name value : CText) (s k : Bytes) :
    (r.valueHandler bucket grow sec name value).2.get bucket s k =
      if foldStr sec.text = foldStr s ∧ foldStr name.text = foldStr k then
        some (match r.get bucket s k with
          | none => value.text
          | some old => old ++ [0x0A] ++ value.text)
      else r.get bucket s k := by
  have hupsert := h.values.lookup_upsert (table_equivalence bucket) grow (law sec) (.empty grow)
    (fun t => addValue bucket grow t name.text value.text) s
  simp only [eq_iff] at hupsert
  rw [get_eq_lookup, get_eq_lookup, INIReader.valueHandler]
  dsimp only
  rw [hupsert]
  by_cases hs : foldStr sec.text = foldStr s
  · -- A section that is not there is entered without names.
    have hsec : ∃ t, HashTable.WF (table bucket) t ∧
        (r.values.lookup (table bucket) s).getD (.empty grow) = t ∧
        ((r.values.lookup (table bucket) s).bind fun t => t.lookup (table bucket) k) =
          t.lookup (table bucket) k := by
      cases hold : r.values.lookup (table bucket) s with
      | none => exact ⟨_, .empty, rfl, rfl⟩
      | some t => exact ⟨t, HashTable.forall_lookup h.inner hold, rfl, rfl⟩
    obtain ⟨t, ht, hget, hbind⟩ := hsec
    rw [if_pos hs, Option.bind_some, hget, hbind, lookup_addValue ht]
    simp only [hs, true_and]
  · rw [if_neg hs, if_neg fun h => hs h.1]

/-- **One removal.** -/
theorem get_removeSection (h : r.WF bucket) (sec : CText) (s k : Bytes) :
    (r.removeSection bucket sec.text).get bucket s k =
      if foldStr sec.text = foldStr s then none else r.get bucket s k := by
  have herase := h.values.lookup_erase (table_equivalence bucket) sec.text s
  simp only [eq_iff] at herase
  rw [get_eq_lookup, get_eq_lookup, INIReader.removeSection, herase]
  split_ifs <;> rfl

/-! ## Any calls -/

/-- `INIReader` after some calls. -/
def calls (bucket : ℕ → UInt64 → ℕ) (grow : ℕ → ℕ → ℕ) (cs : List Call) : INIReader :=
  cs.foldl (call bucket grow) (new grow)

theorem WF.call (h : r.WF bucket) (c : Call) : (call bucket grow r c).WF bucket := by
  cases c with
  | valueHandler sec name value => exact h.valueHandler sec name value
  | removeSection sec => exact h.removeSection sec.text

/-- **One call** does to what is found what it does to the values collected. -/
theorem get_call (h : r.WF bucket) {s k : Bytes} {vs : List Bytes}
    (hget : r.get bucket s k = joined vs) (c : Call) :
    (call bucket grow r c).get bucket s k = joined (collect s k vs c) := by
  cases c with
  | valueHandler sec name value =>
    rw [INIReader.call, get_valueHandler h, hget, collect]
    split_ifs
    · rw [joined_snoc]
    · rfl
  | removeSection sec =>
    rw [INIReader.call, get_removeSection h, hget, collect]
    split_ifs <;> rfl

theorem get_calls (cs : List Call) (h : r.WF bucket) {s k : Bytes} {vs : List Bytes}
    (hget : r.get bucket s k = joined vs) :
    (cs.foldl (call bucket grow) r).WF bucket ∧
      (cs.foldl (call bucket grow) r).get bucket s k = joined (cs.foldl (collect s k) vs) := by
  induction cs generalizing r vs with
  | nil => exact ⟨h, hget⟩
  | cons c cs ih => exact ih (h.call c) (get_call h hget c)

/-- **A table of values.** -/
theorem get_eq (bucket : ℕ → UInt64 → ℕ) (grow : ℕ → ℕ → ℕ) (cs : List Call) (s k : Bytes) :
    ((calls bucket grow cs).get bucket s k = none ↔ valuesOf cs s k = []) ∧
    (calls bucket grow cs).get bucket s k = joined (valuesOf cs s k) ∧
    ((calls bucket grow cs).existsName bucket s k ↔ (calls bucket grow cs).get bucket s k ≠ none) ∧
    ∀ sec : CText, foldStr sec.text ≠ foldStr s →
      ((calls bucket grow cs).removeSection bucket sec.text).get bucket s k =
        (calls bucket grow cs).get bucket s k := by
  have hnew : (new grow).get bucket s k = joined [] := rfl
  obtain ⟨hwf, hget⟩ : (calls bucket grow cs).WF bucket ∧
      (calls bucket grow cs).get bucket s k = joined (valuesOf cs s k) := get_calls cs .new hnew
  refine ⟨?_, hget, ?_, fun sec hsec => ?_⟩
  · rw [hget, joined_eq_none]
  · rw [existsName_eq, Option.isSome_iff_ne_none]
  · rw [get_removeSection hwf, if_neg hsec]

end INIReader

end SseExt
