import Builra.Macro.Meaning

namespace Builra.Macro

open List

/-!
# `Macro.Quoting` — string lists and their quoted form

`parseStringList` of a list of strings writes the list in its quoted form and parses that. The quoter and the
parser have their own sets of characters: what the quoter does not escape and the parser takes for whitespace
cuts a string into pieces (`Segments`). The quoted form of every list of strings without `$` is the text of a
tree of `Macro.Syntax`, so that its value is the list of the pieces.
-/

open Splice

/-! ## The quoter -/

/-- The characters that are written after a backslash. -/
def needsEscape (ch : UInt8) : Bool :=
  ch = ascii ' ' ∨ ch = ascii '\t' ∨ ch = ascii '\r' ∨ ch = ascii '\n' ∨ ch = ascii '\\' ∨ ch = ascii '"'
    ∨ ch = ascii '\''

variable (string : Text)

def writeEscaped : Text :=
  string.flatMap fun ch => if needsEscape ch then [ascii '\\', ch] else [ch]

/-- `writeQuotedStringListRepresentation`. -/
def writeQuotedStringListRepresentation : Text :=
  if string.isEmpty then [ascii '"', ascii '"'] else writeEscaped string

/-- `quotedStringListRepresentation`: a space before every string but the first. -/
def quotedStringListRepresentation : List Text → Text
  | [] => []
  | string :: strings =>
    writeQuotedStringListRepresentation string
      ++ strings.flatMap fun string => ascii ' ' :: writeQuotedStringListRepresentation string

/-- `parseStringList` of a list of strings. -/
def parseStringListOfStrings (strings : List Text) : Except Violation MacroExpression :=
  parseStringList (quotedStringListRepresentation strings)

/-- Vertical tabs and form feeds: whitespace to the parser, and not escaped. -/
def bareWhitespace (ch : UInt8) : Bool := ch = 0x0b ∨ ch = 0x0c

/-- What holds of the 256 bytes holds of every byte. -/
theorem forall_byte {P : UInt8 → Prop} (h : ∀ n < 256, P (UInt8.ofNat n)) (ch : UInt8) : P ch := by
  have hch := h ch.toNat ch.toNat_lt
  rwa [UInt8.ofNat_toNat] at hch

theorem specialInElement_iff (ch : UInt8) :
    specialInElement ch = true ↔ needsEscape ch = true ∨ ch = ascii '$' ∨ bareWhitespace ch = true :=
  forall_byte (P := fun ch => specialInElement ch = true ↔
    needsEscape ch = true ∨ ch = ascii '$' ∨ bareWhitespace ch = true) (by decide +kernel) ch

theorem isAtWhitespace_of_bare {ch : UInt8} (h : bareWhitespace ch = true) : isAtWhitespace [ch] = true :=
  forall_byte (P := fun ch => bareWhitespace ch = true → isAtWhitespace [ch] = true) (by decide +kernel) ch h

/-! ## Elements

A string without bare whitespace and without `$` is written as one list element. -/

/-- The parts of the element written for a string, after literal text that was read before. -/
@[grind =]
def escapedParts (carry : Text) : Text → Parts
  | [] => .literal carry
  | ch :: string =>
    if needsEscape ch then .escaped carry ch (escapedParts [] string) else escapedParts (carry ++ [ch]) string

def quotedElement : Element :=
  if string.isEmpty then ⟨[(.literal [], .double, .literal [])], .literal []⟩ else ⟨[], escapedParts [] string⟩

/-- A string that stays in one piece. -/
def Whole : Prop := ∀ ch ∈ string, bareWhitespace ch = false ∧ ch ≠ ascii '$'

theorem escapedParts_text (carry string : Text) : (escapedParts carry string).text = carry ++ writeEscaped string := by
  induction string generalizing carry with
  | nil => exact (append_nil carry).symm
  | cons ch string ih =>
    unfold escapedParts writeEscaped
    split <;> rename_i hescape
    · simp [Parts.text, ih, writeEscaped, hescape]
    · simp [ih, writeEscaped, hescape]

theorem escapedParts_wellFormed {carry string : Text} (hcarry : Literal specialInElement carry)
    (hstring : Whole string) : (escapedParts carry string).WellFormed specialInElement := by
  induction string generalizing carry with
  | nil => exact hcarry
  | cons ch string ih =>
    have hrest : Whole string := fun c hc => hstring c (mem_cons_of_mem _ hc)
    rw [escapedParts]
    split
    · exact ⟨hcarry, ih (fun c hc => absurd hc not_mem_nil) hrest⟩
    · rename_i hescape
      apply ih _ hrest
      intro c hc
      obtain hc | rfl := (mem_append.mp hc).imp_right mem_singleton.mp
      · exact hcarry c hc
      · obtain ⟨hbare, hdollar⟩ := hstring c mem_cons_self
        rw [← Bool.not_eq_true, specialInElement_iff]
        simp [hescape, hbare, hdollar]

theorem escapedParts_eval (fns : StringFunctions) (reading : Reading) (values : Text → Bool → List Text)
    (carry string : Text) :
    (escapedParts carry string).eval fns reading values false false = literalValue (carry ++ string) := by
  induction string generalizing carry with
  | nil =>
    rw [append_nil]
    rfl
  | cons ch string ih =>
    rw [escapedParts]
    split
    · rw [Parts.eval, ih, literalValue_append carry, nil_append]
      unfold literalValue
      by_cases hstring : string = [] <;> simp [hstring, splice]
    · rw [ih, append_assoc, singleton_append]

theorem escapedParts_isEmpty (carry string : Text) :
    (escapedParts carry string).isEmpty = (carry ++ string).isEmpty := by
  induction string generalizing carry with
  | nil =>
    rw [append_nil]
    rfl
  | cons ch string ih =>
    rw [escapedParts]
    split
    · simp [Parts.isEmpty]
    · rw [ih, append_assoc, singleton_append]

theorem quotedElement_text :
    (quotedElement string).text = writeQuotedStringListRepresentation string := by
  unfold quotedElement writeQuotedStringListRepresentation
  split
  · rfl
  · exact escapedParts_text [] string

theorem quotedElement_wellFormed {string : Text} (h : Whole string) : (quotedElement string).WellFormed := by
  have hnil : Literal specialInElement [] := fun c hc => absurd hc not_mem_nil
  unfold quotedElement
  split
  · refine ⟨.inl (by simp), fun g hg => ?_, hnil⟩
    rw [mem_singleton] at hg
    subst hg
    exact ⟨hnil, fun c hc => absurd hc not_mem_nil⟩
  · rename_i hne
    refine ⟨.inr ?_, fun g hg => absurd hg not_mem_nil, escapedParts_wellFormed hnil h⟩
    rw [escapedParts_isEmpty, nil_append]
    simpa using hne

/-- The element written for a string has the string for its value. -/
theorem quotedElement_eval (fns : StringFunctions) (reading : Reading) (values : Text → Bool → List Text)
    (string : Text) : (quotedElement string).eval fns reading values false = [string] := by
  unfold quotedElement
  split
  · rename_i hempty
    rw [isEmpty_iff.mp hempty]
    rfl
  · rename_i hne
    have hne : string ≠ [] := by simpa using hne
    simp [Element.eval, groupsValue, escapedParts_eval, literalValue, hne]

/-! ## Segments

What is written, as the parser sees it: the pieces of the strings, each with the whitespace before it. -/

structure Segments where
  /-- The whitespace before a piece, and the piece. -/
  pieces : List (Text × Text)
  trailing : Text

namespace Segments

def text (g : Segments) : Text :=
  g.pieces.flatMap (fun p => p.1 ++ writeQuotedStringListRepresentation p.2) ++ g.trailing

variable (ch : UInt8)

variable (g : Segments)

/-- Whitespace before everything else. -/
def blank : Segments :=
  match g.pieces with
  | [] => ⟨[], ch :: g.trailing⟩
  | (whitespace, piece) :: more => ⟨(ch :: whitespace, piece) :: more, g.trailing⟩

/-- A character of a string before the rest of the string. -/
def cons : Segments :=
  if bareWhitespace ch then g.blank ch
  else
    match g.pieces with
    | ([], piece) :: more => ⟨([], ch :: piece) :: more, g.trailing⟩
    | pieces => ⟨([], [ch]) :: pieces, g.trailing⟩

@[grind =]
def append (g h : Segments) : Segments :=
  match h.pieces with
  | [] => ⟨g.pieces, g.trailing ++ h.trailing⟩
  | (whitespace, piece) :: more => ⟨g.pieces ++ (g.trailing ++ whitespace, piece) :: more, h.trailing⟩

@[grind =]
def ofString (string : Text) : Segments :=
  if string.isEmpty then ⟨[([], [])], []⟩ else string.foldr cons ⟨[], []⟩

/-- The strings after the first, each after a space. -/
@[grind =]
def ofMore : List Text → Segments
  | [] => ⟨[], []⟩
  | string :: strings => ((ofString string).append (ofMore strings)).blank (ascii ' ')

def ofStrings : List Text → Segments
  | [] => ⟨[], []⟩
  | string :: strings => (ofString string).append (ofMore strings)

/-- The pieces are whole, and whitespace keeps them apart. -/
structure WellFormed (g : Segments) : Prop where
  whitespace : ∀ p ∈ g.pieces, Whitespace p.1
  whole : ∀ p ∈ g.pieces, Whole p.2
  separated : ∀ p ∈ g.pieces.tail, p.1 ≠ []
  trailing : Whitespace g.trailing

theorem text_blank : (g.blank ch).text = ch :: g.text := by
  unfold blank text
  split <;> simp_all

theorem pieces_blank :
    (g.blank ch).pieces.map Prod.snd = g.pieces.map Prod.snd := by
  unfold blank
  split <;> simp_all

theorem text_append (g h : Segments) : (g.append h).text = g.text ++ h.text := by
  unfold append text
  split <;> simp_all

theorem pieces_append (g h : Segments) :
    (g.append h).pieces.map Prod.snd = g.pieces.map Prod.snd ++ h.pieces.map Prod.snd := by
  unfold append
  split <;> simp_all

theorem wellFormed_nil : WellFormed ⟨[], []⟩ where
  whitespace := by simp
  whole := by simp
  separated := by simp
  trailing := fun c hc => absurd hc not_mem_nil

variable {g : Segments} {string : Text} {strings : List Text}

theorem WellFormed.blank (h : g.WellFormed) {ch : UInt8} (hch : isAtWhitespace [ch] = true) :
    (g.blank ch).WellFormed := by
  obtain ⟨pieces, trailing⟩ := g
  cases pieces with
  | nil => exact ⟨by simp [Segments.blank], by simp [Segments.blank], by simp [Segments.blank],
      forall_mem_cons.mpr ⟨hch, h.trailing⟩⟩
  | cons p more =>
    obtain ⟨whitespace, piece⟩ := p
    obtain ⟨hfirst, hmore⟩ := forall_mem_cons.mp h.whitespace
    exact ⟨forall_mem_cons.mpr ⟨forall_mem_cons.mpr ⟨hch, hfirst⟩, hmore⟩,
      forall_mem_cons.mpr (forall_mem_cons.mp h.whole), h.separated, h.trailing⟩

theorem blank_separated (h : g.WellFormed) (ch : UInt8) : ∀ p ∈ (g.blank ch).pieces, p.1 ≠ [] := by
  obtain ⟨pieces, trailing⟩ := g
  cases pieces with
  | nil => simp [blank]
  | cons p more => exact forall_mem_cons.mpr ⟨by simp, h.separated⟩

theorem WellFormed.append {h : Segments} (hg : g.WellFormed) (hh : h.WellFormed)
    (hseparated : ∀ p ∈ h.pieces, p.1 ≠ []) : (g.append h).WellFormed := by
  obtain ⟨pieces, trailing⟩ := h
  cases pieces with
  | nil => exact ⟨hg.whitespace, hg.whole, hg.separated, forall_mem_append.mpr ⟨hg.trailing, hh.trailing⟩⟩
  | cons p more =>
    obtain ⟨whitespace, piece⟩ := p
    obtain ⟨hne, hmore⟩ := forall_mem_cons.mp hseparated
    obtain ⟨hw, hws⟩ := forall_mem_cons.mp hh.whitespace
    refine ⟨?_, forall_mem_append.mpr ⟨hg.whole, forall_mem_cons.mpr (forall_mem_cons.mp hh.whole)⟩,
      ?_, hh.trailing⟩
    · exact forall_mem_append.mpr ⟨hg.whitespace,
        forall_mem_cons.mpr ⟨forall_mem_append.mpr ⟨hg.trailing, hw⟩, hws⟩⟩
    · intro q hq
      have hq : q ∈ g.pieces.tail ∨ q ∈ (g.trailing ++ whitespace, piece) :: more := by
        change q ∈ (g.pieces ++ (g.trailing ++ whitespace, piece) :: more).tail at hq
        rw [tail_append] at hq
        split at hq
        · exact .inr (mem_of_mem_tail hq)
        · exact mem_append.mp hq
      obtain hq | hq := hq
      · exact hg.separated q hq
      · obtain rfl | hq := mem_cons.mp hq
        · simpa using fun _ => hne
        · exact hmore q hq

/-- What is left of a string never has an empty piece, so that a character can go before its first piece. -/
def Inhabited (g : Segments) : Prop := ∀ p ∈ g.pieces, p.2 ≠ []

theorem cons_inhabited (h : g.Inhabited) (ch : UInt8) : (g.cons ch).Inhabited := by
  obtain ⟨pieces, trailing⟩ := g
  unfold cons
  split
  · cases pieces with
    | nil => simp [Inhabited, blank]
    | cons p more => exact forall_mem_cons.mpr (forall_mem_cons.mp h)
  · match pieces with
    | [] => simp [Inhabited]
    | ([], piece) :: more => exact forall_mem_cons.mpr ⟨by simp, (forall_mem_cons.mp h).2⟩
    | (c :: whitespace, piece) :: more => exact forall_mem_cons.mpr ⟨by simp, h⟩

theorem text_cons (h : g.Inhabited) (ch : UInt8) : (g.cons ch).text = writeEscaped [ch] ++ g.text := by
  obtain ⟨pieces, trailing⟩ := g
  unfold cons
  split
  · rename_i hbare
    have hescape : needsEscape ch = false :=
      forall_byte (P := fun ch => bareWhitespace ch = true → needsEscape ch = false) (by decide +kernel) ch hbare
    rw [text_blank]
    simp [writeEscaped, hescape]
  · match pieces with
    | [] => simp [text, writeQuotedStringListRepresentation]
    | ([], piece) :: more =>
      have hne := (forall_mem_cons.mp h).1
      simp [text, writeQuotedStringListRepresentation, writeEscaped, hne]
    | (c :: whitespace, piece) :: more => simp [text, writeQuotedStringListRepresentation]

theorem WellFormed.cons (h : g.WellFormed) {ch : UInt8} (hch : ch ≠ ascii '$') :
    (g.cons ch).WellFormed := by
  obtain ⟨pieces, trailing⟩ := g
  have hnil : Whitespace [] := fun c hc => absurd hc not_mem_nil
  unfold Segments.cons
  split
  · rename_i hbare
    exact h.blank (isAtWhitespace_of_bare hbare)
  · rename_i hbare
    have hbare : bareWhitespace ch = false := by simpa using hbare
    have hone : Whole [ch] := forall_mem_singleton.mpr ⟨hbare, hch⟩
    match pieces with
    | [] =>
      exact ⟨forall_mem_singleton.mpr hnil, forall_mem_singleton.mpr hone, by simp, h.trailing⟩
    | ([], piece) :: more =>
      obtain ⟨hwhole, hmore⟩ := forall_mem_cons.mp h.whole
      exact ⟨forall_mem_cons.mpr (forall_mem_cons.mp h.whitespace),
        forall_mem_cons.mpr ⟨forall_mem_cons.mpr ⟨⟨hbare, hch⟩, hwhole⟩, hmore⟩, h.separated, h.trailing⟩
    | (c :: whitespace, piece) :: more =>
      exact ⟨forall_mem_cons.mpr ⟨hnil, h.whitespace⟩, forall_mem_cons.mpr ⟨hone, h.whole⟩,
        forall_mem_cons.mpr ⟨by simp, h.separated⟩, h.trailing⟩

theorem foldr_cons_spec (hdollar : ascii '$' ∉ string) :
    (string.foldr cons ⟨[], []⟩).WellFormed ∧ (string.foldr cons ⟨[], []⟩).Inhabited
      ∧ (string.foldr cons ⟨[], []⟩).text = writeEscaped string := by
  induction string with
  | nil => exact ⟨wellFormed_nil, by simp [Inhabited], rfl⟩
  | cons ch string ih =>
    obtain ⟨hch, hstring⟩ : ascii '$' ≠ ch ∧ ascii '$' ∉ string := by simpa using hdollar
    obtain ⟨hwf, hinhabited, htext⟩ := ih hstring
    refine ⟨hwf.cons (Ne.symm hch), cons_inhabited hinhabited ch, ?_⟩
    rw [foldr_cons, text_cons hinhabited, htext]
    simp [writeEscaped]

theorem ofString_spec (hdollar : ascii '$' ∉ string) :
    (ofString string).WellFormed ∧ (ofString string).text = writeQuotedStringListRepresentation string := by
  unfold ofString writeQuotedStringListRepresentation
  split
  · refine ⟨⟨?_, ?_, by simp, fun c hc => absurd hc not_mem_nil⟩, rfl⟩ <;>
      exact forall_mem_singleton.mpr fun c hc => absurd hc not_mem_nil
  · obtain ⟨hwf, -, htext⟩ := foldr_cons_spec hdollar
    exact ⟨hwf, htext⟩

theorem ofMore_spec (hdollar : ∀ string ∈ strings, ascii '$' ∉ string) :
    (ofMore strings).WellFormed ∧ (∀ p ∈ (ofMore strings).pieces, p.1 ≠ [])
      ∧ (ofMore strings).text
        = strings.flatMap fun string => ascii ' ' :: writeQuotedStringListRepresentation string := by
  induction strings with
  | nil => exact ⟨wellFormed_nil, by simp [ofMore], rfl⟩
  | cons string strings ih =>
    obtain ⟨hstring, hstrings⟩ := forall_mem_cons.mp hdollar
    obtain ⟨hwf, htext⟩ := ofString_spec hstring
    obtain ⟨hmore, hseparated, hmoreText⟩ := ih hstrings
    have happend := hwf.append hmore hseparated
    refine ⟨happend.blank (by decide), blank_separated happend _, ?_⟩
    rw [ofMore, text_blank, text_append, htext, hmoreText, flatMap_cons]
    rfl

/-- The segments of a list of strings are its quoted form. -/
theorem ofStrings_spec (hdollar : ∀ string ∈ strings, ascii '$' ∉ string) :
    (ofStrings strings).WellFormed ∧ (ofStrings strings).text = quotedStringListRepresentation strings := by
  cases strings with
  | nil => exact ⟨wellFormed_nil, rfl⟩
  | cons string strings =>
    obtain ⟨hstring, hstrings⟩ := forall_mem_cons.mp hdollar
    obtain ⟨hwf, htext⟩ := ofString_spec hstring
    obtain ⟨hmore, hseparated, hmoreText⟩ := ofMore_spec hstrings
    refine ⟨hwf.append hmore hseparated, ?_⟩
    rw [ofStrings, text_append, htext, hmoreText]
    rfl

/-- The tree of the segments. -/
def tree (g : Segments) : ListText :=
  match g.pieces with
  | [] => .blank g.trailing
  | (whitespace, piece) :: more =>
    .elements whitespace (quotedElement piece) (more.map fun p => (p.1, quotedElement p.2)) g.trailing

theorem moreText_pieces (more : List (Text × Text)) (trailing : Text) :
    moreText (more.map fun p => (p.1, quotedElement p.2)) trailing
      = more.flatMap (fun p => p.1 ++ writeQuotedStringListRepresentation p.2) ++ trailing := by
  induction more with
  | nil => rfl
  | cons p more ih => simp [moreText, ih, quotedElement_text]

theorem tree_text (g : Segments) : g.tree.text = g.text := by
  obtain ⟨pieces, trailing⟩ := g
  cases pieces with
  | nil => rfl
  | cons p more => simp [tree, ListText.text, moreText_pieces, text, quotedElement_text]

theorem tree_wellFormed (h : g.WellFormed) : g.tree.WellFormed := by
  obtain ⟨pieces, trailing⟩ := g
  cases pieces with
  | nil => exact h.trailing
  | cons p more =>
    obtain ⟨hwhitespace, hwhitespaces⟩ := forall_mem_cons.mp h.whitespace
    obtain ⟨hpiece, hpieces⟩ := forall_mem_cons.mp h.whole
    refine ⟨hwhitespace, quotedElement_wellFormed hpiece, ?_, h.trailing⟩
    intro m hm
    obtain ⟨q, hq, rfl⟩ := mem_map.mp hm
    exact ⟨h.separated q hq, hwhitespaces q hq, quotedElement_wellFormed (hpieces q hq)⟩

section Values

variable (fns : StringFunctions) (reading : Reading) (values : Text → Bool → List Text)

theorem moreValue_pieces (first : List Text) (more : List (Text × Text)) :
    moreValue fns reading values false first (more.map fun p => (p.1, quotedElement p.2))
      = first ++ more.map Prod.snd := by
  induction more generalizing first with
  | nil => exact (append_nil first).symm
  | cons p more ih =>
    rw [map_cons, moreValue, ih]
    simp [quotedElement_eval]

theorem tree_eval (g : Segments) : g.tree.eval fns reading values false = g.pieces.map Prod.snd := by
  obtain ⟨pieces, trailing⟩ := g
  cases pieces with
  | nil => rfl
  | cons p more => simp [tree, ListText.eval, quotedElement_eval, moreValue_pieces]

end Values

/-- A string without bare whitespace is one piece. -/
theorem ofString_of_whole (h : ∀ ch ∈ string, bareWhitespace ch = false) :
    ofString string = ⟨[([], string)], []⟩ := by
  unfold ofString
  split
  · rename_i hempty
    rw [isEmpty_iff.mp hempty]
  · rename_i hne
    induction string with
    | nil => exact absurd rfl hne
    | cons ch string ih =>
      obtain ⟨hch, hstring⟩ := forall_mem_cons.mp h
      rw [foldr_cons]
      cases string with
      | nil => simp [cons, hch]
      | cons ch' string =>
        rw [ih hstring (by simp)]
        simp [cons, hch]

section

variable (h : ∀ string ∈ strings, ∀ ch ∈ string, bareWhitespace ch = false)
include h

theorem ofMore_pieces :
    (ofMore strings).pieces.map Prod.snd = strings := by
  induction strings with
  | nil => rfl
  | cons string strings ih =>
    obtain ⟨hstring, hstrings⟩ := forall_mem_cons.mp h
    rw [ofMore, pieces_blank, pieces_append, ofString_of_whole hstring, ih hstrings]
    rfl

theorem ofStrings_pieces :
    (ofStrings strings).pieces.map Prod.snd = strings := by
  cases strings with
  | nil => rfl
  | cons string strings =>
    obtain ⟨hstring, hstrings⟩ := forall_mem_cons.mp h
    rw [ofStrings, pieces_append, ofString_of_whole hstring, ofMore_pieces hstrings]
    rfl

end

/-- The pieces are the strings exactly when nothing in the strings cuts them. -/
theorem ofStrings_pieces_iff (hdollar : ∀ string ∈ strings, ascii '$' ∉ string) :
    (ofStrings strings).pieces.map Prod.snd = strings
      ↔ ∀ string ∈ strings, ∀ ch ∈ string, bareWhitespace ch = false := by
  refine ⟨fun h string hstring ch hch => ?_, ofStrings_pieces⟩
  rw [← h] at hstring
  obtain ⟨p, hp, rfl⟩ := mem_map.mp hstring
  exact ((ofStrings_spec hdollar).1.whole p hp ch hch).1

end Segments

/-! ## Evaluation -/

section Evaluation

variable (fns : StringFunctions) (mfns : MatchFunctions) (scope : MacroEvaluationScope)
  (lookup : MacroDeclaration → Option MacroExpression)

variable {fuel : Nat}

theorem evaluateStringListExpression_of_means {expr : MacroExpression}
    {elements : MacroEvaluationContext → Bool → List Text} (h : Means fns mfns scope expr elements)
    (hfuel : assignmentsLeft scope (.root none [] lookup) < fuel) :
    evaluateStringListExpression fns mfns scope false lookup fuel expr
      = .ok (elements (.root none [] lookup) false) := by
  obtain ⟨b, hb, hlist, -⟩ := h (.root none [] lookup) false fuel hfuel
  rw [evaluateStringListExpression, hb, ← hlist]
  rfl

/-- A list of strings is parsed into the pieces that its quoted form has. -/
theorem evaluate_quoted {strings : List Text} (hdollar : ∀ string ∈ strings, ascii '$' ∉ string)
    (hfuel : assignmentsLeft scope (.root none [] lookup) < fuel) :
    ∃ expr, parseStringListOfStrings strings = .ok expr
      ∧ evaluateStringListExpression fns mfns scope false lookup fuel expr
        = .ok ((Segments.ofStrings strings).pieces.map Prod.snd) := by
  obtain ⟨hwf, htext⟩ := Segments.ofStrings_spec hdollar
  have htree := Segments.tree_wellFormed hwf
  obtain ⟨expr, hparse, -⟩ := parseStringList_text htree
  have hmakes : ExpressionSyntax.Makes expr (.stringList (Segments.ofStrings strings).tree) := ⟨htree, hparse⟩
  refine ⟨expr, ?_, ?_⟩
  · rw [parseStringListOfStrings, ← htext, ← Segments.tree_text, hparse]
  · rw [evaluateStringListExpression_of_means fns mfns scope lookup (means_of_tree fns mfns scope hmakes) hfuel]
    exact congrArg Except.ok (Segments.tree_eval fns _ _ _)

theorem evaluate_literal (stringRep : Text) (strings : List Text)
    (hfuel : assignmentsLeft scope (.root none [] lookup) < fuel) :
    evaluateStringListExpression fns mfns scope false lookup fuel (parseLiteralStringList stringRep strings)
      = .ok strings := by
  have hmakes : ExpressionSyntax.Makes (parseLiteralStringList stringRep strings) (.literalStringList strings) :=
    ⟨stringRep, rfl⟩
  rw [evaluateStringListExpression_of_means fns mfns scope lookup (means_of_tree fns mfns scope hmakes) hfuel]
  cases strings <;> rfl

/-- **String lists survive quoting** exactly when no string has a vertical tab or a form feed in it: then the list
that is quoted and parsed back evaluates to itself, as the literal list always does. -/
theorem quoting_preserves_list {strings : List Text} (hdollar : ∀ string ∈ strings, ascii '$' ∉ string) {fuel : Nat}
    (hfuel : assignmentsLeft scope (.root none [] lookup) < fuel) :
    ((∃ expr, parseStringListOfStrings strings = .ok expr
        ∧ evaluateStringListExpression fns mfns scope false lookup fuel expr = .ok strings)
      ∧ evaluateStringListExpression fns mfns scope false lookup fuel
          (parseLiteralStringList (quotedStringListRepresentation strings) strings) = .ok strings)
      ↔ ∀ string ∈ strings, ∀ ch ∈ string, ch ≠ 0x0b ∧ ch ≠ 0x0c := by
  have hbare : ∀ ch, bareWhitespace ch = false ↔ ch ≠ 0x0b ∧ ch ≠ 0x0c := by
    intro ch
    simp [bareWhitespace]
  simp only [← hbare, ← Segments.ofStrings_pieces_iff hdollar]
  obtain ⟨expr, hparse, heval⟩ := evaluate_quoted fns mfns scope lookup hdollar hfuel
  constructor
  · rintro ⟨⟨expr', hparse', heval'⟩, -⟩
    rw [hparse] at hparse'
    cases hparse'
    rw [heval] at heval'
    exact Except.ok.inj heval'
  · intro h
    rw [h] at heval
    exact ⟨⟨expr, hparse, heval⟩, evaluate_literal fns mfns scope lookup _ strings hfuel⟩

end Evaluation

/-- Strings with quotes, spaces and nothing in them. -/
theorem quoting_preserves_awkward : ∃ expr,
    parseStringListOfStrings [text "a b", [], text "\"c\\'"] = .ok expr
      ∧ evaluateStringListExpression plainFunctions plainMatch emptyScope false (fun _ => none) 1 expr
        = .ok [text "a b", [], text "\"c\\'"] :=
  ((quoting_preserves_list plainFunctions plainMatch emptyScope (fun _ => none) (by decide)
    (by decide +kernel)).mpr (by decide +kernel)).1

/-- A vertical tab cuts a string in two. -/
theorem quoting_cuts_at_vertical_tab :
    (∀ string ∈ ([[ascii 'a', 0x0b, ascii 'b']] : List Text), ascii '$' ∉ string)
      ∧ (∃ expr, parseStringListOfStrings [[ascii 'a', 0x0b, ascii 'b']] = .ok expr
        ∧ evaluateStringListExpression plainFunctions plainMatch emptyScope false (fun _ => none) 1 expr
          = .ok [text "a", text "b"])
      ∧ [text "a", text "b"] ≠ [[ascii 'a', 0x0b, ascii 'b']] := by
  refine ⟨by decide, ?_, by decide⟩
  exact evaluate_quoted plainFunctions plainMatch emptyScope (fun _ => none) (by decide) (by decide)

end Builra.Macro
