import SseExt.Ini.Parse

/-!
# Layouts of INI files

A file is a list of items, each on a line of its own: blanks, comments, headers, names with their
values, and lines that go on with the value before. White space and comments may stand wherever the
format allows them. `content` writes an item out, and `meaning` says which values the file has,
without a look at the parser.

**Theorem (`callsOf_render`).** The parser reads from a written file exactly its values, in order,
each with its section and its name; no line is malformed, and every name fits in its buffer.

The proof follows the layers of the parser: white space at the ends of a text (`rstrip_append_cons`,
`lskip_append`), the search for a separator or a comment (`findCharsOrComment_append`), a line
(`readLine_item`), the lines of the file (`readAll_render`).
-/

namespace SseExt.Ini

open Numeral

/-- The marks of comments. -/
def marks : Bytes := [0x3B, 0x23]

def separators : Bytes := [0x3D, 0x3A]

/-! ## Texts -/

def Spaces (s : Bytes) : Prop := ∀ c ∈ s, isSpace c = true

/-- No white space at either end. -/
structure Trimmed (s : Bytes) : Prop where
  head : ∀ c ∈ s.head?, isSpace c = false
  last : ∀ c ∈ s.getLast?, isSpace c = false

/-- No mark of a comment after white space; `w` says whether white space comes before. -/
def NoComment : Bool → Bytes → Prop
  | _, [] => True
  | w, c :: cs => (w = true → c ∉ marks) ∧ NoComment (isSpace c) cs

/-- What may come after a value: white space, or a comment after white space. -/
inductive Tail : Bytes → Prop
  | spaces {s : Bytes} : Spaces s → Tail s
  | comment {s : Bytes} {mark : UInt8} (text : Bytes) :
      Spaces s → s ≠ [] → mark ∈ marks → Tail (s ++ mark :: text)

/-- A value as the parser keeps it. -/
structure IsValue (s : Bytes) : Prop where
  trimmed : Trimmed s
  noComment : NoComment false s

/-- A name that can begin a line. -/
structure IsName (s : Bytes) : Prop where
  trimmed : Trimmed s
  noComment : NoComment false s
  ne_nil : s ≠ []
  noSeparator : ∀ c ∈ s, c ∉ separators
  head : ∀ c ∈ s.head?, c ∉ marks ∧ c ≠ 0x5B
  lt : s.length < maxName

/-- A text between brackets. -/
structure IsHeader (s : Bytes) : Prop where
  noComment : NoComment false s
  noBracket : ∀ c ∈ s, c ∉ [(0x5D : UInt8)]
  lt : s.length < maxSection

instance decidableSpaces : DecidablePred Spaces := fun s => inferInstanceAs (Decidable (∀ c ∈ s, _))

instance decidableTrimmed (s : Bytes) : Decidable (Trimmed s) :=
  have : Decidable (∀ c ∈ s.head?, isSpace c = false) := Option.decidableForallMem _
  have : Decidable (∀ c ∈ s.getLast?, isSpace c = false) := Option.decidableForallMem _
  decidable_of_iff ((∀ c ∈ s.head?, isSpace c = false) ∧ ∀ c ∈ s.getLast?, isSpace c = false)
    ⟨fun h => ⟨h.1, h.2⟩, fun h => ⟨h.head, h.last⟩⟩

instance decidableNoComment : ∀ w s, Decidable (NoComment w s)
  | _, [] => isTrue trivial
  | w, c :: cs =>
    have := decidableNoComment (isSpace c) cs
    inferInstanceAs (Decidable ((w = true → c ∉ marks) ∧ NoComment (isSpace c) cs))

instance decidableIsValue (s : Bytes) : Decidable (IsValue s) :=
  decidable_of_iff (Trimmed s ∧ NoComment false s)
    ⟨fun h => ⟨h.1, h.2⟩, fun h => ⟨h.trimmed, h.noComment⟩⟩

/-! ## Items -/

/-- A line of a file, with its layout. -/
inductive Item where
  | blank (indent : Bytes)
  | comment (indent : Bytes) (mark : UInt8) (text : Bytes)
  | header (text trailer : Bytes)
  | pair (name pad : Bytes) (sep : UInt8) (gap value tail : Bytes)
  | more (indent value tail : Bytes)

namespace Item

/-- The line without its newline. -/
def content : Item → Bytes
  | blank indent => indent
  | comment indent mark text => indent ++ mark :: text
  | header text trailer => 0x5B :: (text ++ 0x5D :: trailer)
  | pair name pad sep gap value tail => name ++ (pad ++ sep :: (gap ++ (value ++ tail)))
  | more indent value tail => indent ++ (value ++ tail)

/-- What the line says. -/
def line : Item → Line
  | blank _ | comment _ _ _ => .blank
  | header text _ => .header text
  | pair name _ _ _ value _ => .pair name value
  | more _ value _ => .more value

/-- The layout is one that the format allows; `named` says whether there is a value to go on
with. A comment after an empty value would be its value. -/
def Ok (named : Bool) : Item → Prop
  | blank indent => Spaces indent
  | comment indent mark _ => Spaces indent ∧ mark ∈ marks
  | header text _ => IsHeader text
  | pair name pad sep gap value tail => IsName name ∧ Spaces pad ∧ sep ∈ separators ∧
      Spaces gap ∧ IsValue value ∧ Tail tail ∧ (value = [] → tail = [])
  | more indent value tail => named = true ∧ Spaces indent ∧ indent ≠ [] ∧ IsValue value ∧
      value ≠ [] ∧ (∀ c ∈ value.head?, c ∉ marks) ∧ Tail tail

/-- Is there a value to go on with after this line? -/
def names (named : Bool) : Item → Bool
  | header _ _ => false
  | pair _ _ _ _ _ _ => true
  | _ => named

/-- The line is one for `fgets`: it has no newline and no terminator in it, and it fits in the
buffer. -/
structure Fits (i : Item) : Prop where
  chars : ∀ c ∈ i.content, c ≠ 0 ∧ c ≠ 0x0A
  lt : i.content.length + 1 < maxLine

/-- The bytes of the line. -/
def bytes (i : Item) : Bytes := i.content ++ [0x0A]

end Item

/-! ## White space -/

variable {s t rest chars : Bytes} {c : UInt8} {w named : Bool} {i : Item} {is : List Item}

theorem rstrip_append_spaces (s : Bytes) (ht : Spaces t) : rstrip (s ++ t) = rstrip s := by
  rw [rstrip, List.rdropWhile, List.reverse_append, List.dropWhile_append_of_pos]
  · rfl
  · exact fun c hc => ht c (List.mem_reverse.1 hc)

/-- Stripping stops at what is no white space. -/
theorem rstrip_append_cons (s t : Bytes) (hc : isSpace c = false) :
    rstrip (s ++ c :: t) = s ++ c :: rstrip t := by
  induction t using List.reverseRecOn with
  | nil => exact List.rdropWhile_concat_neg _ _ _ (by simp [hc])
  | append_singleton t x ih =>
    have hassoc : s ++ c :: (t ++ [x]) = (s ++ c :: t) ++ [x] := by simp
    rw [hassoc, rstrip, rstrip, List.rdropWhile_concat, List.rdropWhile_concat]
    split_ifs
    · exact ih
    · exact hassoc.symm

theorem rstrip_cons (t : Bytes) (hc : isSpace c = false) : rstrip (c :: t) = c :: rstrip t :=
  rstrip_append_cons [] t hc

theorem rstrip_spaces (ht : Spaces t) : rstrip t = [] :=
  List.rdropWhile_eq_nil_iff.2 ht

theorem Trimmed.rstrip_eq (h : Trimmed s) : rstrip s = s := by
  refine List.rdropWhile_eq_self_iff.2 fun hne hspace => ?_
  rw [h.last _ (List.getLast_mem_getLast? hne)] at hspace
  cases hspace

theorem lskip_append (hs : Spaces s) (t : Bytes) : lskip (s ++ t) = lskip t :=
  List.dropWhile_append_of_pos hs

theorem lskip_cons (t : Bytes) (hc : isSpace c = false) : lskip (c :: t) = c :: t := by
  rw [lskip, List.dropWhile_cons, if_neg (by simp [hc])]

theorem not_mark_of_isSpace (hc : isSpace c = true) : c ∉ marks := by
  intro hmem
  rcases List.mem_cons.1 hmem with rfl | hmem
  · exact absurd hc (by decide)
  · rw [List.mem_singleton.1 hmem] at hc
    exact absurd hc (by decide)

theorem not_isSpace_of_mem (hc : c ∈ marks ++ separators ++ [0x5B, 0x5D]) : isSpace c = false := by
  have hall : ∀ c ∈ marks ++ separators ++ [0x5B, 0x5D], isSpace c = false := by decide +kernel
  exact hall c hc

theorem spaces_newline : Spaces [0x0A] := by
  intro c hc
  rw [List.mem_singleton.1 hc]
  rfl

theorem Spaces.append (hs : Spaces s) (ht : Spaces t) : Spaces (s ++ t) :=
  List.forall_mem_append.2 ⟨hs, ht⟩

/-! ## The search -/

/-- White space comes last, or, in an empty text, before. -/
def endsInSpace : Bool → Bytes → Bool
  | w, [] => w
  | _, c :: cs => endsInSpace (isSpace c) cs

/-- The search passes over a text with nothing to find in it. -/
theorem findCharsOrComment_append (hchars : ∀ c ∈ s, c ∉ chars) (hs : NoComment w s)
    (rest : Bytes) : findCharsOrComment chars w (s ++ rest) =
      (s ++ (findCharsOrComment chars (endsInSpace w s) rest).1,
        (findCharsOrComment chars (endsInSpace w s) rest).2) := by
  induction s generalizing w with
  | nil => rfl
  | cons c cs ih =>
    have hstop : ¬ (c ∈ chars ∨ (w = true ∧ c ∈ [(0x3B : UInt8), 0x23])) := by
      rintro (hc | hc)
      · exact hchars c List.mem_cons_self hc
      · exact hs.1 hc.1 hc.2
    rw [List.cons_append, findCharsOrComment, if_neg hstop,
      ih (fun d hd => hchars d (List.mem_cons_of_mem c hd)) hs.2]
    rfl

theorem findCharsOrComment_self (hs : NoComment w s) : findCharsOrComment [] w s = (s, []) := by
  have h := @findCharsOrComment_append s [] w (fun _ _ => List.not_mem_nil) hs []
  rw [List.append_nil] at h
  rw [h, findCharsOrComment, List.append_nil]

/-- The search stops at one of its characters. -/
theorem findCharsOrComment_char (hchars : ∀ c ∈ s, c ∉ chars) (hs : NoComment w s)
    (hc : c ∈ chars) (rest : Bytes) :
    findCharsOrComment chars w (s ++ c :: rest) = (s, c :: rest) := by
  rw [findCharsOrComment_append hchars hs, findCharsOrComment, if_pos (.inl hc), List.append_nil]

/-- The search stops at a comment. -/
theorem findCharsOrComment_comment (hs : NoComment w s) (hspace : endsInSpace w s = true)
    (hc : c ∈ marks) (rest : Bytes) :
    findCharsOrComment [] w (s ++ c :: rest) = (s, c :: rest) := by
  rw [findCharsOrComment_append (fun _ _ => List.not_mem_nil) hs, findCharsOrComment, hspace,
    if_pos (.inr ⟨rfl, hc⟩), List.append_nil]

theorem noComment_spaces (ht : Spaces t) : NoComment w t := by
  induction t generalizing w with
  | nil => trivial
  | cons c cs ih =>
    have hc := ht c List.mem_cons_self
    exact ⟨fun _ => not_mark_of_isSpace hc, ih fun d hd => ht d (List.mem_cons_of_mem c hd)⟩

theorem NoComment.append_spaces (hs : NoComment w s) (ht : Spaces t) : NoComment w (s ++ t) := by
  induction s generalizing w with
  | nil => exact noComment_spaces ht
  | cons c cs ih => exact ⟨hs.1, ih hs.2⟩

theorem endsInSpace_spaces (ht : Spaces t) (hne : t ≠ []) : endsInSpace w t = true := by
  induction t generalizing w with
  | nil => exact absurd rfl hne
  | cons c cs ih =>
    cases cs with
    | nil => exact ht c List.mem_cons_self
    | cons d ds =>
      rw [endsInSpace]
      exact ih (fun e he => ht e (List.mem_cons_of_mem c he)) (List.cons_ne_nil d ds)

theorem endsInSpace_append (s : Bytes) (ht : Spaces t) (hne : t ≠ []) :
    endsInSpace w (s ++ t) = true := by
  induction s generalizing w with
  | nil => exact endsInSpace_spaces ht hne
  | cons c cs ih => exact ih

/-- **A value is cut out** of what follows it. -/
theorem cutComment_value (hs : IsValue s) (ht : Tail t) :
    cutComment (rstrip (s ++ (t ++ [0x0A]))) = s := by
  cases ht with
  | spaces ht =>
    rw [rstrip_append_spaces s (ht.append spaces_newline), hs.trimmed.rstrip_eq, cutComment,
      findCharsOrComment_self hs.noComment, hs.trimmed.rstrip_eq]
  | @comment t mark text ht hne hmark =>
    have hassoc : s ++ (t ++ mark :: text ++ [0x0A]) = (s ++ t) ++ mark :: (text ++ [0x0A]) := by
      simp
    have hspace : isSpace mark = false :=
      not_isSpace_of_mem (List.mem_append_left _ (List.mem_append_left _ hmark))
    rw [hassoc, rstrip_append_cons _ _ hspace, cutComment,
      findCharsOrComment_comment (hs.noComment.append_spaces ht) (endsInSpace_append s ht hne)
        hmark, rstrip_append_spaces s ht, hs.trimmed.rstrip_eq]

/-! ## Lines -/

/-- What the loop does with a line depends on the first character that is not white space. -/
theorem readLine_core {lineno : ℕ} {indent cs : Bytes}
    (hnul : NulFree (indent ++ c :: cs)) (hbom : bomLength lineno (indent ++ c :: cs) = 0)
    (hindent : Spaces indent) (hc : isSpace c = false) :
    readLine lineno named (indent ++ c :: cs) =
      if c ∈ marks then .blank
      else if named = true ∧ indent ≠ [] then .more (cutComment (rstrip (c :: cs)))
      else if c = 0x5B then readHeader (rstrip (c :: cs))
      else readPair (rstrip (c :: cs)) := by
  have hoffset : (indent ++ c :: rstrip cs).length - (c :: rstrip cs).length = indent.length := by
    simp
  rw [readLine, hnul.cPart_eq, hbom, List.drop_zero, rstrip_append_cons _ _ hc,
    lskip_append hindent, lskip_cons _ hc, rstrip_cons _ hc]
  simp only [hoffset, Nat.zero_add, List.length_pos_iff_ne_nil]
  simp [marks]

theorem readLine_spaces {lineno : ℕ} (hnul : NulFree s) (hbom : bomLength lineno s = 0)
    (hs : Spaces s) : readLine lineno named s = .blank := by
  rw [readLine, hnul.cPart_eq, hbom, List.drop_zero, rstrip_spaces hs]
  rfl

theorem readHeader_eq (hs : IsHeader s) (t : Bytes) :
    readHeader (rstrip (0x5B :: (s ++ 0x5D :: t))) = .header s := by
  rw [rstrip_cons _ rfl, rstrip_append_cons _ _ rfl, readHeader, List.tail_cons,
    findCharsOrComment_char hs.noBracket hs.noComment List.mem_cons_self]
  rfl

/-- **A name and its value.** -/
theorem readPair_eq {name pad gap value tail : Bytes} {sep : UInt8} (hname : IsName name)
    (hpad : Spaces pad) (hsep : sep ∈ separators) (hgap : Spaces gap) (hvalue : IsValue value)
    (htail : Tail tail) (hempty : value = [] → tail = []) :
    readPair (rstrip (name ++ (pad ++ sep :: (gap ++ (value ++ (tail ++ [0x0A])))))) =
      .pair name value := by
  have hspace : isSpace sep = false :=
    not_isSpace_of_mem (List.mem_append_left _ (List.mem_append_right _ hsep))
  have hnosep : ∀ c ∈ name ++ pad, c ∉ separators := by
    refine List.forall_mem_append.2 ⟨hname.noSeparator, fun c hc hmem => ?_⟩
    have hc' : isSpace c = false :=
      not_isSpace_of_mem (List.mem_append_left _ (List.mem_append_right _ hmem))
    rw [hpad c hc] at hc'
    cases hc'
  have hcut : cutComment (lskip (rstrip (gap ++ (value ++ (tail ++ [0x0A]))))) = value := by
    cases value with
    | nil =>
      rw [hempty rfl, List.nil_append, List.nil_append,
        rstrip_spaces (hgap.append spaces_newline)]
      rfl
    | cons c cs =>
      have hc : isSpace c = false := hvalue.trimmed.head c rfl
      have hval := cutComment_value hvalue htail
      rw [List.cons_append, rstrip_cons _ hc] at hval
      rw [List.cons_append, rstrip_append_cons _ _ hc, lskip_append hgap, lskip_cons _ hc, hval]
  rw [← List.append_assoc name, rstrip_append_cons _ _ hspace, readPair]
  have hfind := findCharsOrComment_char hnosep (hname.noComment.append_spaces hpad) hsep
    (rstrip (gap ++ (value ++ (tail ++ [0x0A]))))
  have hrstrip : rstrip (name ++ pad) = name := by
    rw [rstrip_append_spaces name hpad, hname.trimmed.rstrip_eq]
  have hpair : Line.pair (rstrip (name ++ pad))
      (cutComment (lskip (rstrip (gap ++ (value ++ (tail ++ [0x0A])))))) = .pair name value := by
    rw [hrstrip, hcut]
  rcases List.mem_cons.1 hsep with rfl | hsep
  · rw [show ([0x3D, 0x3A] : Bytes) = separators from rfl, hfind]
    exact hpair
  · rw [List.mem_singleton.1 hsep] at hfind ⊢
    rw [show ([0x3D, 0x3A] : Bytes) = separators from rfl, hfind]
    exact hpair

theorem Item.Fits.nulFree (h : i.Fits) : NulFree i.bytes := by
  refine List.forall_mem_append.2 ⟨fun c hc => (h.chars c hc).1, fun c hc => ?_⟩
  rw [List.mem_singleton.1 hc]
  decide

/-- **A line says what its item says.** -/
theorem readLine_item {lineno : ℕ} (hok : i.Ok named) (hfits : i.Fits)
    (hbom : bomLength lineno i.bytes = 0) : readLine lineno named i.bytes = i.line := by
  have hnul := hfits.nulFree
  cases i with
  | blank indent => exact readLine_spaces hnul hbom (hok.append spaces_newline)
  | comment indent mark text =>
    have hmark : isSpace mark = false :=
      not_isSpace_of_mem (List.mem_append_left _ (List.mem_append_left _ hok.2))
    have hbytes : (Item.comment indent mark text).bytes = indent ++ mark :: (text ++ [0x0A]) := by
      simp [Item.bytes, Item.content]
    rw [hbytes] at hnul hbom ⊢
    rw [readLine_core hnul hbom hok.1 hmark, if_pos hok.2]
    rfl
  | header text trailer =>
    have hbytes : (Item.header text trailer).bytes =
        [] ++ 0x5B :: (text ++ 0x5D :: (trailer ++ [0x0A])) := by
      simp [Item.bytes, Item.content]
    rw [hbytes] at hnul hbom ⊢
    rw [readLine_core hnul hbom nofun rfl, if_neg (by decide), if_neg (by simp), if_pos rfl,
      readHeader_eq hok]
    rfl
  | pair name pad sep gap value tail =>
    obtain ⟨hname, hpad, hsep, hgap, hvalue, htail, hempty⟩ := hok
    have hpair := readPair_eq hname hpad hsep hgap hvalue htail hempty
    obtain ⟨c, cs, rfl⟩ := List.exists_cons_of_ne_nil hname.ne_nil
    have hbytes : (Item.pair (c :: cs) pad sep gap value tail).bytes =
        [] ++ c :: (cs ++ (pad ++ sep :: (gap ++ (value ++ (tail ++ [0x0A]))))) := by
      simp [Item.bytes, Item.content]
    have hc := hname.head c rfl
    rw [hbytes] at hnul hbom ⊢
    rw [readLine_core hnul hbom nofun (hname.trimmed.head c rfl), if_neg hc.1, if_neg (by simp),
      if_neg hc.2]
    exact hpair
  | more indent value tail =>
    obtain ⟨hnamed, hindent, hne, hvalue, hvne, hhead, htail⟩ := hok
    have hcut := cutComment_value hvalue htail
    obtain ⟨c, cs, rfl⟩ := List.exists_cons_of_ne_nil hvne
    have hbytes : (Item.more indent (c :: cs) tail).bytes =
        indent ++ c :: (cs ++ (tail ++ [0x0A])) := by
      simp [Item.bytes, Item.content]
    rw [hbytes] at hnul hbom ⊢
    rw [readLine_core hnul hbom hindent (hvalue.trimmed.head c rfl), if_neg (hhead c rfl),
      if_pos ⟨hnamed, hne⟩]
    exact congrArg Line.more hcut

/-! ## Files -/

/-- Every item is one the format allows after those before it. -/
def AllOk : Bool → List Item → Prop
  | _, [] => True
  | named, i :: is => i.Ok named ∧ i.Fits ∧ AllOk (i.names named) is

def byteOrderMark : Bytes := [0xEF, 0xBB, 0xBF]

/-- A file, with a byte order mark if `bom`. -/
structure Layout where
  bom : Bool
  items : List Item

namespace Layout

def render (l : Layout) : Bytes :=
  (if l.bom then byteOrderMark else []) ++ l.items.flatMap Item.bytes

/-- The first line has room for the byte order mark, or does not look like one. -/
def StartOk (bom : Bool) : List Item → Prop
  | [] => bom = false
  | i :: _ =>
    if bom then i.content.length + 4 < maxLine else i.bytes.take 3 ≠ byteOrderMark

/-- The layout is one the format allows. -/
structure Ok (l : Layout) : Prop where
  items : AllOk false l.items
  start : StartOk l.bom l.items

end Layout

/-- The values of items: what comes in a section `sec` after a name `name`. -/
def meaning : Bytes → Bytes → List Item → List Call
  | _, _, [] => []
  | sec, name, i :: is =>
    match i with
    | .blank _ | .comment _ _ _ => meaning sec name is
    | .header text _ => meaning text [] is
    | .pair name _ _ _ value _ => ⟨sec, name, value⟩ :: meaning sec name is
    | .more _ value _ => ⟨sec, name, value⟩ :: meaning sec name is

/-! ## The stream -/

theorem takeLine_append {n : ℕ} (hs : ∀ c ∈ s, c ≠ 0x0A) (hn : s.length < n) (rest : Bytes) :
    takeLine n (s ++ 0x0A :: rest) = s ++ [0x0A] := by
  induction s generalizing n with
  | nil =>
    obtain ⟨m, rfl⟩ := Nat.exists_eq_add_of_lt hn
    rfl
  | cons c cs ih =>
    obtain ⟨m, rfl⟩ : ∃ m, n = m + 1 := ⟨n - 1, by omega⟩
    have hc : c ≠ 0x0A := hs c List.mem_cons_self
    rw [List.cons_append, takeLine, if_neg hc,
      ih (fun d hd => hs d (List.mem_cons_of_mem c hd)) (by simpa using hn)]
    rfl

/-- A line is read into the buffer with its newline. -/
theorem readAll_line (hs : ∀ c ∈ s, c ≠ 0x0A) (hlt : s.length + 1 < maxLine) (rest : Bytes) :
    readAll (s ++ 0x0A :: rest) = (s ++ [0x0A]) :: readAll rest := by
  have htake := takeLine_append (n := maxLine - 1) hs (by omega) rest
  apply readAll_of_fgets
  cases s with
  | nil =>
    rw [List.nil_append] at htake ⊢
    rw [fgets, htake]
    rfl
  | cons c cs =>
    rw [List.cons_append, fgets, ← List.cons_append, htake]
    simp

theorem readAll_render (h : ∀ i ∈ is, i.Fits) :
    readAll (is.flatMap Item.bytes) = is.map Item.bytes := by
  induction is with
  | nil =>
    rw [List.flatMap_nil, readAll]
    rfl
  | cons i is ih =>
    obtain ⟨hi, his⟩ := List.forall_mem_cons.1 h
    rw [List.flatMap_cons, Item.bytes, List.append_assoc, List.singleton_append,
      readAll_line (fun c hc => (hi.chars c hc).2) hi.lt, ih his]
    rfl

/-- The lines of items, with the names before them. -/
def itemLines : Names → List Item → List (Names × Line)
  | _, [] => []
  | s, i :: is => (s, i.line) :: itemLines (s.after i.line) is

theorem names_after {n : Names} (hi : i.Ok (n.name ≠ [])) :
    i.names (n.name ≠ []) = decide ((n.after i.line).name ≠ []) := by
  cases i with
  | pair name _ _ _ _ _ => exact (decide_eq_true hi.1.ne_nil).symm
  | header text _ => rfl
  | _ => rfl

/-- **The lines after the first.** -/
theorem linesFrom_items {lineno : ℕ} {n : Names} (h : AllOk (n.name ≠ []) is)
    (hlineno : lineno ≠ 0) : linesFrom lineno n (is.map Item.bytes) = itemLines n is := by
  induction is generalizing lineno n with
  | nil => rfl
  | cons i is ih =>
    obtain ⟨hok, hfits, hrest⟩ := h
    have hbom : bomLength (lineno + 1) i.bytes = 0 := if_neg fun hb => hlineno (by omega)
    rw [names_after hok] at hrest
    rw [List.map_cons, linesFrom, readLine_item hok hfits hbom, itemLines,
      ih hrest (Nat.succ_ne_zero lineno)]

theorem AllOk.fits (h : AllOk named is) : ∀ i ∈ is, i.Fits := by
  induction is generalizing named with
  | nil => exact nofun
  | cons i is ih => exact List.forall_mem_cons.2 ⟨h.2.1, ih h.2.2⟩

/-- A byte order mark in front of the first line is skipped. -/
theorem readLine_bom {buffer : Bytes} (h : NulFree buffer) :
    readLine 1 false (byteOrderMark ++ buffer) = readLine 0 false buffer := by
  have hnul : NulFree (byteOrderMark ++ buffer) := List.forall_mem_append.2 ⟨by decide +kernel, h⟩
  rw [readLine, readLine, hnul.cPart_eq, h.cPart_eq]
  simp [bomLength, byteOrderMark]

theorem linesOf_render {l : Layout} (h : l.Ok) :
    linesOf (readAll l.render) = itemLines ⟨[], []⟩ l.items := by
  obtain ⟨bom, is⟩ := l
  obtain ⟨hitems, hstart⟩ := h
  cases is with
  | nil =>
    cases hstart
    have hread : readAll (Layout.render ⟨false, []⟩) = [] := @readAll_render [] nofun
    rw [hread]
    rfl
  | cons i is =>
    have hread := readAll_render hitems.fits
    obtain ⟨hok, hfits, hrest⟩ := hitems
    have hlines (buffer : Bytes) (hline : readLine 1 false buffer = i.line) :
        linesOf (buffer :: is.map Item.bytes) = itemLines ⟨[], []⟩ (i :: is) := by
      have hnames := names_after (n := ⟨[], []⟩) (i := i) hok
      have hnamed : i.names false = decide ((Names.after ⟨[], []⟩ i.line).name ≠ []) := hnames
      rw [hnamed] at hrest
      rw [linesOf, linesFrom, itemLines]
      dsimp only
      rw [show readLine (0 + 1) (decide (([] : Bytes) ≠ [])) buffer = i.line from hline,
        linesFrom_items hrest (Nat.succ_ne_zero 0)]
    cases bom with
    | false =>
      have hbom : bomLength 1 i.bytes = 0 := if_neg fun hb => hstart hb.2
      rw [show Layout.render ⟨false, i :: is⟩ = (i :: is).flatMap Item.bytes from rfl, hread]
      exact hlines _ (readLine_item hok hfits hbom)
    | true =>
      have hchars : ∀ c ∈ byteOrderMark ++ i.content, c ≠ 0x0A :=
        List.forall_mem_append.2 ⟨by decide +kernel, fun c hc => (hfits.chars c hc).2⟩
      have hlt : (byteOrderMark ++ i.content).length + 1 < maxLine := by
        have hlen : i.content.length + 4 < maxLine := hstart
        rw [List.length_append, show byteOrderMark.length = 3 from rfl]
        omega
      have hfile : Layout.render ⟨true, i :: is⟩ =
          (byteOrderMark ++ i.content) ++ 0x0A :: is.flatMap Item.bytes := by
        simp [Layout.render, Item.bytes]
      rw [hfile, readAll_line hchars hlt, readAll_render hrest.fits, List.append_assoc]
      refine hlines _ ((readLine_bom hfits.nulFree).trans ?_)
      exact readLine_item hok hfits (if_neg fun hb => absurd hb.1 (by decide))

/-! ## What is read -/

theorem line_fits (h : i.Ok named) : i.line.Fits ∧ i.line ≠ .malformed := by
  cases i with
  | header text _ => exact ⟨h.lt, nofun⟩
  | pair name _ _ _ _ _ => exact ⟨h.1.lt, nofun⟩
  | _ => exact ⟨trivial, nofun⟩

theorem itemLines_fits {n : Names} (h : AllOk (n.name ≠ []) is) :
    ∀ p ∈ itemLines n is, p.2.Fits ∧ p.2 ≠ .malformed := by
  induction is generalizing n with
  | nil => exact nofun
  | cons i is ih =>
    have hrest := h.2.2
    rw [names_after h.1] at hrest
    exact List.forall_mem_cons.2 ⟨line_fits h.1, ih hrest⟩

theorem filterMap_itemLines {n : Names} (h : AllOk (n.name ≠ []) is)
    (hn : n.header.length < maxSection) :
    ((itemLines n is).filterMap fun p => callOf p.1 p.2) = meaning n.header n.name is := by
  induction is generalizing n with
  | nil => rfl
  | cons i is ih =>
    obtain ⟨hok, -, hrest⟩ := h
    rw [names_after hok] at hrest
    have htake : n.header.take (maxSection - 1) = n.header :=
      List.take_of_length_le (Nat.le_sub_one_of_lt hn)
    cases i with
    | blank | comment => exact ih hrest hn
    | header text trailer => exact ih hrest hok.lt
    | pair name _ _ _ value _ =>
      rw [itemLines, Item.line, List.filterMap_cons, callOf, htake]
      exact congrArg _ (ih hrest hn)
    | more _ value _ =>
      rw [itemLines, Item.line, List.filterMap_cons, callOf, htake]
      exact congrArg _ (ih hrest hn)

/-- **The parser reads what was written.** -/
theorem callsOf_render {l : Layout} (h : l.Ok) :
    callsOf (readAll l.render) = meaning [] [] l.items ∧
      ∀ p ∈ linesOf (readAll l.render), p.2.Fits ∧ p.2 ≠ .malformed := by
  rw [callsOf, linesOf_render h]
  exact ⟨filterMap_itemLines (n := ⟨[], []⟩) h.items (by decide),
    itemLines_fits (n := ⟨[], []⟩) h.items⟩

end SseExt.Ini
