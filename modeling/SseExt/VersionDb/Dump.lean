import SseExt.Lib.Numeral
import SseExt.VersionDb.Codec

/-!
# `VersionDb::Dump`

The table is written out as text, an entry a line: the id in decimal, a tab, and the offset in
hexadecimal. The map is gone through in an order that nobody knows.

**Theorem (`dump_eq_iff`).** The text can be read in one way only: two tables, gone through in any
orders, give the same text exactly when their entries come in the same order, and then every id is
found in both or in neither, at the same offset.
-/

namespace SseExt

open Numeral

namespace VersionDb

/-- `'\n'` in a file that was opened as text. -/
def newline : List UInt8 := [0x0D, 0x0A]

/-- What the loop of `Dump` writes for an entry. -/
def dumpEntry (e : UInt64 × UInt64) : List UInt8 :=
  render 10 e.1.toNat ++ 0x09 :: (render 16 e.2.toNat ++ newline)

/-- `Dump`, for a map that is gone through in the order of `items`; `good` says whether the file can
be written. -/
def dump (good : Bool) (items : List (UInt64 × UInt64)) : Option (List UInt8) :=
  if !good then none else some (items.flatMap dumpEntry)

/-- An order in which the map can be gone through. -/
structure Lists (db : VersionDb) (items : List (UInt64 × UInt64)) : Prop where
  nodup : (items.map Prod.fst).Nodup
  mem : ∀ id offset, (id, offset) ∈ items ↔ db.data id = some offset

variable {db db' : VersionDb} {items items' : List (UInt64 × UInt64)} {e e' : UInt64 × UInt64}

theorem dumpEntry_ne_nil (e : UInt64 × UInt64) (rest : List UInt8) : dumpEntry e ++ rest ≠ [] := by
  rw [dumpEntry, List.append_assoc]
  exact List.append_ne_nil_of_left_ne_nil (render_ne_nil 10 e.1.toNat) _

/-- **A line is read in one way.** -/
theorem dumpEntry_inj {rest rest' : List UInt8} (h : dumpEntry e ++ rest = dumpEntry e' ++ rest') :
    e = e' ∧ rest = rest' := by
  have hid (e : UInt64 × UInt64) (rest : List UInt8) :
      scanNat 10 (dumpEntry e ++ rest) =
        some (e.1.toNat, 0x09 :: (render 16 e.2.toNat ++ (newline ++ rest))) := by
    rw [dumpEntry, List.append_assoc, List.cons_append, List.append_assoc]
    refine scanNat_render (by decide) (by decide) fun c hc => ?_
    cases hc
    decide
  have hoffset (e : UInt64 × UInt64) (rest : List UInt8) :
      scanNat 16 (render 16 e.2.toNat ++ (newline ++ rest)) =
        some (e.2.toNat, newline ++ rest) := by
    refine scanNat_render (by decide) (by decide) fun c hc => ?_
    cases hc
    decide
  have hfirst := hid e rest
  rw [h, hid e' rest', Option.some.injEq, Prod.mk.injEq, List.cons.injEq] at hfirst
  obtain ⟨hids, -, htail⟩ := hfirst
  have hsecond := hoffset e rest
  rw [← htail, hoffset e' rest', Option.some.injEq, Prod.mk.injEq, List.append_right_inj] at hsecond
  obtain ⟨hoffsets, hrest⟩ := hsecond
  exact ⟨Prod.ext (UInt64.toNat_inj.1 hids.symm) (UInt64.toNat_inj.1 hoffsets.symm), hrest.symm⟩

/-- **A text is read in one way.** -/
theorem flatMap_dumpEntry_inj (h : items.flatMap dumpEntry = items'.flatMap dumpEntry) :
    items = items' := by
  induction items generalizing items' with
  | nil =>
    cases items' with
    | nil => rfl
    | cons e' items' => exact absurd h.symm (dumpEntry_ne_nil e' _)
  | cons e items ih =>
    cases items' with
    | nil => exact absurd h (dumpEntry_ne_nil e _)
    | cons e' items' =>
      obtain ⟨rfl, hrest⟩ := dumpEntry_inj h
      rw [ih hrest]

theorem Lists.data_eq (h : db.Lists items) (h' : db'.Lists items) : db.data = db'.data := by
  funext id
  apply Option.ext
  intro offset
  rw [← h.mem, ← h'.mem]

/-- **The text tells the table.** -/
theorem dump_eq_iff (h : db.Lists items) (h' : db'.Lists items') :
    (dump true items = dump true items' ↔ items = items') ∧
      (dump true items = dump true items' →
        ∀ id, db.findOffsetById id = db'.findOffsetById id) := by
  have hinj : dump true items = dump true items' → items = items' :=
    fun heq => flatMap_dumpEntry_inj (Option.some.inj heq)
  refine ⟨⟨hinj, fun heq => heq ▸ rfl⟩, fun heq id => ?_⟩
  have hitems := hinj heq
  subst hitems
  exact congrFun (h.data_eq h') id

/-- Two entries. -/
def twoEntries : VersionDb where
  data id := if id = 1 then some 0x20 else if id = 12 then some 0xAB else none
  ver := .zero
  verStr := ""
  base := 0

theorem lists_twoEntries : twoEntries.Lists [(1, 0x20), (12, 0xAB)] ∧
    twoEntries.Lists [(12, 0xAB), (1, 0x20)] := by
  have hmem (id offset : UInt64) :
      twoEntries.data id = some offset ↔ (id, offset) = (1, 0x20) ∨ (id, offset) = (12, 0xAB) := by
    simp only [twoEntries, Prod.mk.injEq]
    split_ifs with h1 h2
    · simp [h1, eq_comm]
    · simp [h2, eq_comm]
    · simp [h1, h2]
  refine ⟨⟨by decide, fun id offset => ?_⟩, ⟨by decide, fun id offset => ?_⟩⟩
  · rw [hmem, List.mem_pair]
  · rw [hmem, List.mem_pair, or_comm]

/-- The text of two entries tells their order. -/
theorem dump_eq_iff_twoEntries :
    dump true [(1, 0x20), (12, 0xAB)] =
        some [0x31, 0x09, 0x32, 0x30, 0x0D, 0x0A, 0x31, 0x32, 0x09, 0x61, 0x62, 0x0D, 0x0A] ∧
      dump true [(1, 0x20), (12, 0xAB)] ≠ dump true [(12, 0xAB), (1, 0x20)] := by
  obtain ⟨h, h'⟩ := lists_twoEntries
  refine ⟨by simp [dump, dumpEntry, render, digitChar, newline], fun heq => ?_⟩
  have hitems := (dump_eq_iff h h').1.1 heq
  cases hitems

end VersionDb

end SseExt
