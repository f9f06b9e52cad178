import SseExt.Hash

/-!
# `Util::Model::MakePath`

A path is put under a prefix unless it is there already, which is tested by comparing the two as
far as the shorter one goes.

**Theorem (`makePath_iff`).** The result is the path under the prefix exactly if the path begins
with the prefix and a backslash, or differs from the prefix as far as both go.
-/

namespace SseExt.Model

/-- What `_strnicmp` takes for the same letter. -/
structure Locale where
  tolower : UInt8 → UInt8
  tolower_eq_zero : ∀ c, tolower c = 0 ↔ c = 0

variable (L : Locale)

/-- `_strnicmp` over two buffers; `none` when it leaves one. -/
def strnicmp : ℕ → Bytes → Bytes → Option Int
  | 0, _, _ => some 0
  | n + 1, l :: ls, r :: rs =>
    let cl := L.tolower l
    let cr := L.tolower r
    if cl ≠ cr then some ((cl.toNat : Int) - cr.toNat)
    else if cl = 0 then some 0
    else strnicmp n ls rs
  | _, _, _ => none

/-- `MAX_PATH` -/
def maxPath : ℕ := 260

theorem nulFree_snprintf (pre path : CText) :
    NulFree ((pre.text ++ 0x5C :: path.text).take (maxPath - 1)) := by
  intro c hc
  rcases List.mem_append.1 (List.mem_of_mem_take hc) with hc | hc
  · exact pre.nulFree c hc
  · rcases List.mem_cons.1 hc with rfl | hc
    · decide
    · exact path.nulFree c hc

/-- `stl::snprintf(a_buffer, "%s\\%s", a_prefix, a_path)`, which truncates. -/
def snprintf (pre path : CText) : CText :=
  ⟨(pre.text ++ 0x5C :: path.text).take (maxPath - 1), nulFree_snprintf pre path⟩

/-- `MakePath`: what `a_out` points to, or nothing when it returns false. -/
def makePath (pre : CText) (path : Option CText) : Option CText :=
  match path with
  | none => none
  | some path =>
    let prefixLen := pre.text.length
    let pathLen := path.text.length
    if strnicmp L (min prefixLen pathLen) (cStr pre.text) (cStr path.text) = some 0 then some path
    else some (snprintf pre path)

/-! ## The comparison -/

/-- Bytes without regard to case. -/
def fold (s : Bytes) : Bytes := s.map L.tolower

/-- The text begins with the prefix and a backslash. -/
def Under (pre text : Bytes) : Prop := ∃ p rest, text = p ++ 0x5C :: rest ∧ fold L p = fold L pre

variable {L}

theorem strnicmp_eq_zero_iff {n : ℕ} {a b : Bytes} (ha : NulFree a) (hna : n ≤ a.length)
    (hnb : n ≤ b.length) :
    strnicmp L n (cStr a) (cStr b) = some 0 ↔ fold L (a.take n) = fold L (b.take n) := by
  induction n generalizing a b with
  | zero => simp [strnicmp, fold]
  | succ n ih =>
    obtain ⟨l, ls, rfl⟩ := List.exists_cons_of_length_pos (Nat.lt_of_lt_of_le n.succ_pos hna)
    obtain ⟨r, rs, rfl⟩ := List.exists_cons_of_length_pos (Nat.lt_of_lt_of_le n.succ_pos hnb)
    have hl : L.tolower l ≠ 0 := fun h => ha l (by simp) ((L.tolower_eq_zero l).1 h)
    have hih := ih (fun c hc => ha c (List.mem_cons_of_mem l hc))
      (Nat.le_of_succ_le_succ hna) (Nat.le_of_succ_le_succ hnb)
    by_cases h : L.tolower l = L.tolower r
    · simp only [cStr, fold] at hih
      simp [cStr, fold, strnicmp, h ▸ hl, h, hih]
    · have hne : (L.tolower l).toNat ≠ (L.tolower r).toNat := fun e => h (UInt8.toNat_inj.1 e)
      simp [cStr, fold, strnicmp, h]
      omega

/-- The two agree as far as both go. -/
def Agree (L : Locale) (a b : Bytes) : Prop :=
  fold L (a.take (min a.length b.length)) = fold L (b.take (min a.length b.length))

instance (L : Locale) (a b : Bytes) : Decidable (Agree L a b) := inferInstanceAs (Decidable (_ = _))

theorem makePath_some (L : Locale) (pre path : CText) :
    (Agree L pre.text path.text → makePath L pre (some path) = some path) ∧
      (¬ Agree L pre.text path.text → makePath L pre (some path) = some (snprintf pre path)) := by
  have hiff := strnicmp_eq_zero_iff (L := L) pre.nulFree
    (Nat.min_le_left _ path.text.length) (Nat.min_le_right pre.text.length _)
  exact ⟨fun h => if_pos (hiff.2 h), fun h => if_neg fun h0 => h (hiff.1 h0)⟩

theorem Under.agree {pre text : Bytes} (h : Under L pre text) : Agree L pre text := by
  obtain ⟨p, rest, rfl, hp⟩ := h
  have hlen : p.length = pre.length := by
    have hlen := congrArg List.length hp
    rwa [fold, fold, List.length_map, List.length_map] at hlen
  have hmin : min pre.length (p ++ 0x5C :: rest).length = pre.length := by
    rw [List.length_append]
    omega
  rw [Agree, hmin, List.take_length, List.take_left' hlen]
  exact hp.symm

theorem under_snprintf (L : Locale) {pre path : CText}
    (hfit : pre.text.length + 1 + path.text.length < maxPath) :
    (snprintf pre path).text = pre.text ++ 0x5C :: path.text ∧
      Under L pre.text (snprintf pre path).text := by
  have htext : (snprintf pre path).text = pre.text ++ 0x5C :: path.text := by
    refine List.take_of_length_le ?_
    rw [List.length_append, List.length_cons]
    omega
  exact ⟨htext, _, _, htext, rfl⟩

/-- **`MakePath`** puts a path under the prefix, and leaves what it made as it is, exactly if the
path is under the prefix or differs from it as far as both go. -/
theorem makePath_iff (L : Locale) (pre path : CText)
    (hfit : pre.text.length + 1 + path.text.length < maxPath) :
    (∃ out, makePath L pre (some path) = some out ∧
      (Under L pre.text path.text → out = path) ∧
      (¬ Under L pre.text path.text → out.text = pre.text ++ 0x5C :: path.text) ∧
      Under L pre.text out.text ∧ makePath L pre (some out) = some out) ↔
    (Under L pre.text path.text ∨ ¬ Agree L pre.text path.text) := by
  obtain ⟨hsame, hdiffer⟩ := makePath_some L pre path
  obtain ⟨htext, hunder⟩ := under_snprintf L hfit
  constructor
  · rintro ⟨out, hout, -, hmade, -⟩
    by_contra hcond
    rw [not_or, not_not] at hcond
    -- The path is taken as it is, but it is shorter than what it should be.
    have hlen := congrArg List.length (hmade hcond.1)
    rw [hsame hcond.2, Option.some.injEq] at hout
    rw [← hout, List.length_append, List.length_cons] at hlen
    omega
  · intro hcond
    by_cases hpath : Under L pre.text path.text
    · have hout := hsame hpath.agree
      exact ⟨path, hout, fun _ => rfl, fun h => absurd hpath h, hpath, hout⟩
    · have hout := hdiffer (hcond.resolve_left hpath)
      exact ⟨_, hout, fun h => absurd h hpath, fun _ => htext, hunder,
        (makePath_some L pre _).1 hunder.agree⟩

/-- Lower case of the `C` locale. -/
def cLocale : Locale where
  tolower c := if 0x41 ≤ c ∧ c ≤ 0x5A then c + 0x20 else c
  tolower_eq_zero c := by
    split_ifs with h
    · simp only [UInt8.le_iff_toNat_le, ← UInt8.toNat_inj, UInt8.toNat_add] at h ⊢
      simp at h ⊢
      omega
    · rfl

/-- `meshes` -/
def meshes : CText := ⟨[0x6D, 0x65, 0x73, 0x68, 0x65, 0x73], by decide⟩

/-- `a.nif`, under `meshes`. -/
theorem makePath_iff_sample :
    ∃ out, makePath cLocale meshes (some ⟨[0x61, 0x2E, 0x6E, 0x69, 0x66], by decide⟩) = some out ∧
      Under cLocale meshes.text out.text := by
  obtain ⟨out, hout, -, -, hunder, -⟩ :=
    (makePath_iff cLocale meshes ⟨[0x61, 0x2E, 0x6E, 0x69, 0x66], by decide⟩ (by decide)).2
      (.inr (by decide))
  exact ⟨out, hout, hunder⟩

/-- `mesh` is taken as it is. -/
theorem mesh_not_under :
    makePath cLocale meshes (some ⟨[0x6D, 0x65, 0x73, 0x68], by decide⟩) =
        some ⟨[0x6D, 0x65, 0x73, 0x68], by decide⟩ ∧
      ¬ Under cLocale meshes.text [0x6D, 0x65, 0x73, 0x68] := by
  refine ⟨rfl, ?_⟩
  rintro ⟨p, rest, htext, hp⟩
  have hlen := congrArg List.length hp
  have hlen' := congrArg List.length htext
  simp [fold, meshes] at hlen hlen'
  omega

end SseExt.Model
