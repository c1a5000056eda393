import Builra.Macro.ConfigFileConditions

namespace Builra.Macro.ConfigFile

open List Nat
open Bool hiding decide_eq_false false_or or_true

/-!
# `Macro.ConfigFileLocality` — what a line means alone and in its file

`linesAlone` parses each line of a text alone and moves the line numbers. A parse of the text makes these calls
if and only if every line with a terminator is `Local`: a directive's keyword must not run into a Unicode
separator, which the scan for whitespace does not see, and no message may quote the character at the end of the
line.
-/

/-! ## Moving a parse to another line -/

variable (n : Nat)

def Message.shift : Message → Message
  | .unterminatedMacroConditionOnLine lineNumber => .unterminatedMacroConditionOnLine (lineNumber + n)
  | message => message

/-- The same call, `n` lines further down. -/
def DelegateCall.shift : DelegateCall → DelegateCall
  | .handleDiagnostic d => .handleDiagnostic { d with message := d.message.shift n, lineNumber := d.lineNumber + n }
  | .foundMacroValueAssignment macroName conditions value path startLine endLine startColumn endColumn =>
    .foundMacroValueAssignment macroName conditions value path (startLine + n) (endLine + n) startColumn endColumn
  | call => call

variable (tail : Text)

variable (s : State)

/-- The same state, `n` lines further down and with more text after the line. -/
def State.extend : State := ⟨s.rest ++ tail, s.currLine + n, s.requests⟩

def extend (r : List DelegateCall × State) : List DelegateCall × State :=
  (r.1.map (DelegateCall.shift n), r.2.extend n tail)

@[simp]
theorem extend_moveTo (calls : List DelegateCall) (s : State) (rest : Text) :
    extend n tail (calls, s.moveTo rest)
      = (calls.map (DelegateCall.shift n), (s.extend n tail).moveTo (rest ++ tail)) := rfl

@[simp]
theorem State.extend_rest : (s.extend n tail).rest = s.rest ++ tail := rfl

@[simp]
theorem State.extend_currLine : (s.extend n tail).currLine = s.currLine + n := rfl

theorem State.extend_moveTo (rest : Text) :
    (s.moveTo rest).extend n tail = (s.extend n tail).moveTo (rest ++ tail) := rfl

section Simulation

variable {l mark rest tail : Text} {n : Nat}

theorem slice_append (h : rest <:+ mark) : slice (mark ++ tail) (rest ++ tail) = slice mark rest := by
  have hle := h.length_le
  have hlen : (mark ++ tail).length - (rest ++ tail).length = mark.length - rest.length := by
    rw [length_append, length_append]
    omega
  rw [slice, hlen, take_append_of_le_length (sub_le _ _)]
  rfl

theorem column_append (start : Text) : column (start ++ tail) (rest ++ tail) = column start rest := by
  unfold column
  rw [length_append, length_append, Nat.add_sub_add_right]

theorem Unbroken.isAtEndOfLine_append (h : Unbroken l) (htail : isAtEndOfLine tail = true) :
    isAtEndOfLine (l ++ tail) = isAtEndOfLine l := by
  by_cases hl : l = []
  · subst hl
    rw [nil_append, htail, isAtEndOfLine_nil]
  · rw [h.append htail hl, h.ne hl]

theorem Unbroken.skipRestOfLine_eq (h : Unbroken l) : skipRestOfLine l = [] := by
  have := skipRestOfLine_append h isAtEndOfLine_nil
  rwa [append_nil] at this

theorem Unbroken.skipRestOfLine_append (h : Unbroken l) (htail : isAtEndOfLine tail = true) :
    skipRestOfLine (l ++ tail) = skipRestOfLine l ++ tail := by
  rw [ConfigFile.skipRestOfLine_append h htail, h.skipRestOfLine_eq, nil_append]

variable {p : UInt8 → Bool} {s : State} {after stop : Text}

/-- A scan for the end of the line or for a character of the line. -/
theorem scanUntil_char_append (htail : isAtEndOfLine tail = true) :
    scanUntil (fun rest => isAtEndOfLine rest || p (currChar rest)) (l ++ tail)
      = scanUntil (fun rest => isAtEndOfLine rest || p (currChar rest)) l ++ tail := by
  apply scanUntil_append
  · intro s hs
    rw [ConfigFile.isAtEndOfLine_append htail hs, currChar_append hs]
  · right
    rw [htail, Bool.true_or]

/-- The character at the cursor is one of the line's, or that of the end of the text. -/
theorem currChar_append_of (h : tail = [] ∨ l ≠ []) : currChar (l ++ tail) = currChar l := by
  rcases h with rfl | hl
  · rw [append_nil]
  · exact currChar_append hl

/-! ## Directives -/

theorem parseQuotedString_extend (hl : Unbroken l) (htail : isAtEndOfLine tail = true) (h : tail = [] ∨ l ≠ [])
    (lineNumber : Nat) :
    parseQuotedString (lineNumber + n) (l ++ tail) =
      ((parseQuotedString lineNumber l).1, (parseQuotedString lineNumber l).2.1.map (DelegateCall.shift n),
        (parseQuotedString lineNumber l).2.2 ++ tail) := by
  have hquote : Inner (ascii '"') := by decide
  unfold parseQuotedString
  rw [currChar_append_of h]
  by_cases hopen : currChar l = ascii '"'
  · have hne : l ≠ [] := by
      rintro rfl
      exact hquote.currChar_ne isAtEndOfLine_nil hopen
    rw [if_pos hopen, if_pos hopen]
    dsimp only
    rw [tail_append hne,
      scanUntil_char_append (p := fun c => decide (c = ascii '"')) htail]
    have hsuffix := scanUntil_suffix (fun rest => isAtEndOfLine rest || currChar rest = ascii '"') l.tail
    generalize scanUntil (fun rest => isAtEndOfLine rest || currChar rest = ascii '"') l.tail = stop at hsuffix ⊢
    have hstop : Unbroken stop := hl.tail.suffix hsuffix
    by_cases hclosed : currChar stop = ascii '"'
    · have hne' : stop ≠ [] := by
        rintro rfl
        exact hquote.currChar_ne isAtEndOfLine_nil hclosed
      rw [if_pos ((hquote.currChar_append_iff htail).mpr hclosed), if_pos hclosed, slice_append hsuffix,
        tail_append hne']
      rfl
    · rw [if_neg (mt (hquote.currChar_append_iff htail).mp hclosed), if_neg hclosed,
        hstop.skipRestOfLine_append htail]
      rfl
  · rw [if_neg hopen, if_neg hopen, hl.skipRestOfLine_append htail]
    rfl

variable (answers : Nat → Bool)

theorem includeFile_extend (fileName : Text) (includeIsOptional : Bool) (hs : Unbroken s.rest)
    (htail : isAtEndOfLine tail = true) :
    includeFile answers fileName includeIsOptional (s.extend n tail)
      = extend n tail (includeFile answers fileName includeIsOptional s) := by
  have hrest : skipRestOfLine (s.extend n tail).rest = skipRestOfLine s.rest ++ tail := hs.skipRestOfLine_append htail
  unfold includeFile
  dsimp only
  rw [hrest]
  by_cases hanswer : answers s.requests = true
  · have hanswer' : answers (s.extend n tail).requests = true := hanswer
    rw [if_pos hanswer, if_pos hanswer']
    rfl
  · have hanswer' : ¬answers (s.extend n tail).requests = true := hanswer
    rw [if_neg hanswer, if_neg hanswer']
    rfl

/-- An inclusion means the same in its file if there is something after the keyword. -/
theorem parseInclude_extend (includeIsOptional : Bool) (hs : Unbroken s.rest) (htail : isAtEndOfLine tail = true)
    (h : tail = [] ∨ skipWhitespaceAndComments s.rest ≠ []) :
    parseInclude answers includeIsOptional (s.extend n tail)
      = extend n tail (parseInclude answers includeIsOptional s) := by
  have hskip : Unbroken (skipWhitespaceAndComments s.rest) := hs.suffix (skipWhitespaceAndComments_suffix _)
  have hsuffix := (parseQuotedString_suffix s.currLine (skipWhitespaceAndComments s.rest)).1
  unfold parseInclude
  rw [State.extend_rest, State.extend_currLine, skipWhitespaceAndComments_append hs htail,
    parseQuotedString_extend hskip htail h]
  generalize parseQuotedString s.currLine (skipWhitespaceAndComments s.rest) = r at hsuffix ⊢
  obtain ⟨fileName, calls, rest⟩ := r
  cases fileName with
  | none => rfl
  | some fileName =>
    have hrest : Unbroken rest := hskip.suffix hsuffix
    have hafter : Unbroken (skipWhitespaceAndComments rest) := hrest.suffix (skipWhitespaceAndComments_suffix _)
    dsimp only
    rw [skipWhitespaceAndComments_append hrest htail, hafter.isAtEndOfLine_append htail]
    cases hend : isAtEndOfLine (skipWhitespaceAndComments rest) with
    | true =>
      rw [if_pos rfl, if_pos rfl, ← State.extend_moveTo, includeFile_extend answers _ _ hafter htail]
      simp only [extend, map_append]
    | false =>
      have hne : skipWhitespaceAndComments rest ≠ [] := by
        intro hnil
        rw [hnil] at hend
        cases hend
      rw [if_neg Bool.false_ne_true, if_neg Bool.false_ne_true, hafter.skipRestOfLine_append htail,
        currChar_append hne, extend_moveTo, map_append]
      rfl

variable (line : Text)

/-- Where the keyword of a directive starts, from the hash mark on. -/
def keywordStart : Text := skipWhitespaceAndComments line.tail

/-- Where the keyword of a directive ends. -/
def keywordEnd : Text := scanUntil isAtWhitespace (keywordStart line)

def isIncludeKeyword (keyword : Text) : Bool := keyword = text "include?" ∨ keyword = text "include"

/-- A directive that means the same in a file where this text follows its line: its keyword ends before it, and
an inclusion has something after its keyword. -/
def DirectiveLocal (line tail : Text) : Prop :=
  keywordStart line ≠ [] →
    (keywordEnd line = [] → isAtWhitespace tail = true) ∧
      (isIncludeKeyword (slice (keywordStart line) (keywordEnd line)) = true →
        skipWhitespaceAndComments (keywordEnd line) ≠ [])

/-- A directive, from its hash mark on. -/
def parseDirective (s : State) : List DelegateCall × State :=
  let mark := keywordStart s.rest
  let stop := keywordEnd s.rest
  if isAtEndOfLine mark then ([unexpected .unexpectedEndOfLineAfterHash s.currLine], s.moveTo mark)
  else if isIncludeKeyword (slice mark stop) then
    parseInclude answers (decide (slice mark stop = text "include?")) (s.moveTo stop)
  else
    ([unexpected (.unsupportedPreprocessorDirective (slice mark stop)) s.currLine], s.moveTo (skipRestOfLine stop))

/-- After whitespace and comments, at a hash mark, there is a directive. -/
theorem parsePreprocessorDirective_eq (hskip : skipWhitespaceAndComments s.rest = s.rest)
    (hhash : currChar s.rest = ascii '#') :
    parsePreprocessorDirective answers s = .ok (parseDirective answers s) := by
  have hend : isAtEndOfLine s.rest = false := by
    by_contra h
    exact Inner.currChar_ne (by decide) (by simpa using h) hhash
  have hstart : skipWhitespaceAndComments s.rest.tail = keywordStart s.rest := rfl
  have hstop : scanUntil isAtWhitespace (keywordStart s.rest) = keywordEnd s.rest := rfl
  unfold parsePreprocessorDirective parseDirective
  dsimp only
  rw [hskip, if_neg (by rw [hend]; exact false_ne_true), if_neg (not_not.mpr hhash), assert, if_pos hhash]
  dsimp only [bind, Except.bind]
  rw [hstart, hstop]
  generalize keywordStart s.rest = mark
  generalize slice mark (keywordEnd s.rest) = directive
  split
  · rfl
  · by_cases hoptional : directive = text "include?"
    · have hkeyword : isIncludeKeyword directive = true := decide_eq_true (.inl hoptional)
      rw [if_pos hoptional, if_pos hkeyword, decide_eq_true hoptional]
    · rw [if_neg hoptional, decide_eq_false hoptional]
      by_cases hinclude : directive = text "include"
      · have hkeyword : isIncludeKeyword directive = true := decide_eq_true (.inr hinclude)
        rw [if_pos hinclude, if_pos hkeyword]
      · have hkeyword : isIncludeKeyword directive = false :=
          decide_eq_false fun h => h.elim hoptional hinclude
        rw [if_neg hinclude, hkeyword, if_neg Bool.false_ne_true]

/-- So it is with more text after the line. -/
theorem parsePreprocessorDirective_extend (hs : Unbroken s.rest) (hne : s.rest ≠ []) (htail : isAtEndOfLine tail = true)
    (hskip : skipWhitespaceAndComments s.rest = s.rest) (hhash : currChar s.rest = ascii '#') :
    parsePreprocessorDirective answers (s.extend n tail) = .ok (parseDirective answers (s.extend n tail)) := by
  apply parsePreprocessorDirective_eq
  · rw [State.extend_rest, skipWhitespaceAndComments_append hs htail, hskip]
  · rw [State.extend_rest, currChar_append hne, hhash]

theorem isAtWhitespace_append (hl : l ≠ []) : isAtWhitespace (l ++ tail) = isAtWhitespace l := by
  cases l with
  | nil => exact absurd rfl hl
  | cons c cs => rfl

theorem keywordStart_append (hl : Unbroken l) (hne : l ≠ []) (htail : isAtEndOfLine tail = true) :
    keywordStart (l ++ tail) = keywordStart l ++ tail := by
  rw [keywordStart, tail_append hne, skipWhitespaceAndComments_append hl.tail htail]
  rfl

theorem keywordStart_suffix (l : Text) : keywordStart l <:+ l :=
  (skipWhitespaceAndComments_suffix _).trans (tail_suffix l)

theorem keywordEnd_suffix (l : Text) : keywordEnd l <:+ keywordStart l := scanUntil_suffix _ _

theorem keywordEnd_append (hl : Unbroken l) (hne : l ≠ []) (htail : isAtEndOfLine tail = true)
    (h : keywordEnd l = [] → tail = [] ∨ isAtWhitespace tail = true) :
    keywordEnd (l ++ tail) = keywordEnd l ++ tail := by
  rw [keywordEnd, keywordStart_append hl hne htail]
  exact Scan.scan_append (fun s _ hs => isAtWhitespace_append hs) h

/-- A directive that is local means the same in its file. -/
theorem parseDirective_extend (hs : Unbroken s.rest) (hne : s.rest ≠ []) (htail : isAtEndOfLine tail = true)
    (h : tail = [] ∨ DirectiveLocal s.rest tail) :
    parseDirective answers (s.extend n tail) = extend n tail (parseDirective answers s) := by
  have hmark : Unbroken (keywordStart s.rest) := hs.suffix (keywordStart_suffix _)
  have hstop : Unbroken (keywordEnd s.rest) := hmark.suffix (keywordEnd_suffix _)
  unfold parseDirective
  dsimp only
  rw [State.extend_rest, keywordStart_append hs hne htail, hmark.isAtEndOfLine_append htail]
  by_cases hnil : keywordStart s.rest = []
  · rw [hnil, isAtEndOfLine_nil, if_pos rfl, if_pos rfl]
    rfl
  · have hend : keywordEnd (s.rest ++ tail) = keywordEnd s.rest ++ tail :=
      keywordEnd_append hs hne htail fun he => h.imp_right fun hlocal => (hlocal hnil).1 he
    rw [hmark.ne hnil, if_neg Bool.false_ne_true, if_neg Bool.false_ne_true, hend, slice_append (keywordEnd_suffix _)]
    by_cases hinclude : isIncludeKeyword (slice (keywordStart s.rest) (keywordEnd s.rest)) = true
    · rw [if_pos hinclude, if_pos hinclude]
      have hafter : tail = [] ∨ skipWhitespaceAndComments (keywordEnd s.rest) ≠ [] :=
        h.imp_right fun hlocal => (hlocal hnil).2 hinclude
      rw [← State.extend_moveTo]
      exact parseInclude_extend answers _ hstop htail hafter
    · rw [if_neg hinclude, if_neg hinclude, hstop.skipRestOfLine_append htail]
      rfl

/-- An inclusion with nothing after its keyword quotes the character at the end of the line. -/
theorem parseInclude_of_nothing (includeIsOptional : Bool)
    (h : isAtEndOfLine (skipWhitespaceAndComments s.rest) = true) :
    (parseInclude answers includeIsOptional s).1
      = [unexpected (.unexpectedCharacter (currChar (skipWhitespaceAndComments s.rest))) s.currLine] := by
  have hquote : currChar (skipWhitespaceAndComments s.rest) ≠ ascii '"' := Inner.currChar_ne (by decide) h
  simp only [parseInclude, parseQuotedString, if_neg hquote]

/-- The characters of the line terminators. -/
theorem currChar_terminator (htail : isAtEndOfLine tail = true) (hne : tail ≠ []) :
    currChar tail = 10 ∨ currChar tail = 13 ∨ currChar tail = 0xE2 := by
  simp only [isAtEndOfLine, isAtUnicodeSeparator, decide_eq_true_eq] at htail
  rcases htail with h | h | h | h
  · exact absurd h hne
  · exact .inl h
  · exact .inr (.inl h)
  · exact .inr (.inr h.1)

theorem isAtWhitespace_of_currChar (h : currChar l = 10 ∨ currChar l = 13) : isAtWhitespace l = true := by
  cases l with
  | nil => rcases h with h | h <;> cases h
  | cons c cs =>
    have hc : c = 10 ∨ c = 13 := h
    rcases hc with rfl | rfl <;> rfl

/-- A keyword that runs into a Unicode separator takes it in. -/
theorem keyword_through_separator (hl : Unbroken l) (hne : l ≠ []) (htail : isAtEndOfLine tail = true) (htne : tail ≠ [])
    (hend : keywordEnd l = []) (hspace : isAtWhitespace tail = false) :
    0xE2 ∈ slice (keywordStart l ++ tail) (keywordEnd (l ++ tail)) ∧
      (keywordStart l).length < (slice (keywordStart l ++ tail) (keywordEnd (l ++ tail))).length := by
  -- nothing in the keyword stops the scan, and the separator does not either
  have hgo : ∀ s, s <:+ keywordStart l → s ≠ [] → isAtWhitespace (s ++ tail) = false := by
    obtain ⟨passed, hpassed, hgo⟩ := Scan.scan_passed isAtWhitespace (keywordStart l)
    have hnil : Scan.scan isAtWhitespace (keywordStart l) = [] := hend
    rw [hnil] at hpassed hgo
    rw [append_nil] at hpassed
    intro s hs hsne
    rw [isAtWhitespace_append hsne, ← append_nil s]
    exact hgo s (hpassed ▸ hs) hsne
  have hscan : keywordEnd (l ++ tail) = scanUntil isAtWhitespace tail := by
    rw [keywordEnd, keywordStart_append hl hne htail]
    exact Scan.scan_append_of_go hgo
  have hE2 : currChar tail = 0xE2 := by
    rcases currChar_terminator htail htne with h | h | h
    · rw [isAtWhitespace_of_currChar (.inl h)] at hspace
      cases hspace
    · rw [isAtWhitespace_of_currChar (.inr h)] at hspace
      cases hspace
    · exact h
  obtain ⟨c, cs, rfl⟩ := exists_cons_of_ne_nil htne
  have hc : c = 0xE2 := hE2
  have hscan' : keywordEnd (l ++ c :: cs) = scanUntil isAtWhitespace cs :=
    hscan.trans (Scan.scan_cons_of_go hspace)
  have hle : (scanUntil isAtWhitespace cs).length ≤ cs.length := Scan.scan_length_le _ _
  have hlen : (keywordStart l ++ c :: cs).length - (scanUntil isAtWhitespace cs).length
      = (keywordStart l).length + (cs.length - (scanUntil isAtWhitespace cs).length + 1) := by
    rw [length_append, length_cons]
    omega
  rw [hscan', slice, hlen, take_length_add_append, take_succ_cons, hc]
  constructor
  · exact mem_append_right _ mem_cons_self
  · rw [length_append, length_cons]
    omega

/-- A directive that is not local gives another message in its file. -/
theorem parseDirective_differs (hs : Unbroken s.rest) (hne : s.rest ≠ []) (htail : isAtEndOfLine tail = true)
    (htne : tail ≠ []) (h : ¬DirectiveLocal s.rest tail) :
    ∃ c c', (parseDirective answers (s.extend n tail)).1 = [c] ∧ (parseDirective answers s).1 = [c'] ∧
      c ≠ c'.shift n := by
  have hmark : Unbroken (keywordStart s.rest) := hs.suffix (keywordStart_suffix _)
  have hstop : Unbroken (keywordEnd s.rest) := hmark.suffix (keywordEnd_suffix _)
  obtain ⟨hnil, hlocal⟩ := Classical.not_imp.mp h
  have hstart := keywordStart_append hs hne htail
  unfold parseDirective
  dsimp only
  rw [State.extend_rest, hstart, hmark.isAtEndOfLine_append htail, hmark.ne hnil, if_neg Bool.false_ne_true,
    if_neg Bool.false_ne_true]
  by_cases hthrough : keywordEnd s.rest = [] ∧ isAtWhitespace tail = false
  · -- the keyword runs into a separator: alone it is what it is, in the file it is unknown
    obtain ⟨hend, hspace⟩ := hthrough
    obtain ⟨hE2, hlong⟩ := keyword_through_separator hs hne htail htne hend hspace
    generalize slice (keywordStart s.rest ++ tail) (keywordEnd (s.rest ++ tail)) = directive at hE2 hlong ⊢
    have hunknown : isIncludeKeyword directive = false := by
      apply decide_eq_false
      rintro (rfl | rfl)
      · exact absurd hE2 (by decide)
      · exact absurd hE2 (by decide)
    have halone : slice (keywordStart s.rest) (keywordEnd s.rest) = keywordStart s.rest := by
      rw [hend, slice, length_nil, Nat.sub_zero, take_length]
    rw [hunknown, if_neg Bool.false_ne_true, halone]
    split
    · refine ⟨_, _, rfl, parseInclude_of_nothing answers _ ?_, ?_⟩
      · show isAtEndOfLine (skipWhitespaceAndComments (keywordEnd s.rest)) = true
        rw [hend]
        rfl
      · intro heq
        cases heq
    · refine ⟨_, _, rfl, rfl, ?_⟩
      intro heq
      have hsame : directive = keywordStart s.rest := by
        injection heq with heq
        injection heq with _ _ heq _
        injection heq
      rw [hsame] at hlong
      exact absurd hlong (Nat.lt_irrefl _)
  · -- an inclusion with nothing after its keyword
    have hend : keywordEnd (s.rest ++ tail) = keywordEnd s.rest ++ tail := by
      apply keywordEnd_append hs hne htail
      intro he
      right
      by_contra hspace
      exact hthrough ⟨he, by simpa using hspace⟩
    have hinclude : isIncludeKeyword (slice (keywordStart s.rest) (keywordEnd s.rest)) = true ∧
        skipWhitespaceAndComments (keywordEnd s.rest) = [] := by
      by_contra hno
      refine hlocal ⟨?_, ?_⟩
      · intro he
        by_contra hspace
        exact hthrough ⟨he, by simpa using hspace⟩
      · intro hi hskip
        exact hno ⟨hi, hskip⟩
    obtain ⟨hkeyword, hnothing⟩ := hinclude
    have hskip : skipWhitespaceAndComments (keywordEnd s.rest ++ tail) = tail := by
      rw [skipWhitespaceAndComments_append hstop htail, hnothing, nil_append]
    rw [hend, slice_append (keywordEnd_suffix _), if_pos hkeyword, if_pos hkeyword]
    refine ⟨_, _, parseInclude_of_nothing answers _ ?_, parseInclude_of_nothing answers _ ?_, ?_⟩
    · show isAtEndOfLine (skipWhitespaceAndComments (keywordEnd s.rest ++ tail)) = true
      rw [hskip]
      exact htail
    · show isAtEndOfLine (skipWhitespaceAndComments (keywordEnd s.rest)) = true
      rw [hnothing]
      rfl
    · intro heq
      have hchar : currChar (skipWhitespaceAndComments (keywordEnd s.rest ++ tail))
          = currChar (skipWhitespaceAndComments (keywordEnd s.rest)) := by
        injection heq with heq
        injection heq with _ _ heq _
        injection heq
      rw [hskip, hnothing] at hchar
      rcases currChar_terminator htail htne with h | h | h <;>
      · rw [h] at hchar
        cases hchar

/-! ## Assignments -/

def ConditionScan.extend (n : Nat) (tail : Text) : ConditionScan → ConditionScan
  | .collected conditions rest => .collected conditions (rest ++ tail)
  | .failed message rest => .failed (message.shift n) (rest ++ tail)

theorem parseConditions_extend (htail : isAtEndOfLine tail = true) (lineNumber fuel fuel' : Nat)
    (conditions : List (Text × Text)) (hl : Unbroken l) (hfuel : l.length < fuel) (hfuel' : l.length < fuel') :
    parseConditions (lineNumber + n) fuel' conditions (l ++ tail)
      = (parseConditions lineNumber fuel conditions l).map (ConditionScan.extend n tail) := by
  have hopen : Inner (ascii '[') := by decide
  induction fuel generalizing fuel' conditions l with
  | zero => exact absurd hfuel (not_lt_zero _)
  | succ fuel ih =>
    obtain ⟨fuel', rfl⟩ := exists_eq_succ_of_ne_zero (Nat.ne_of_gt (zero_lt_of_lt hfuel'))
    rw [parseConditions_succ, parseConditions_succ]
    dsimp only
    by_cases hcond : currChar l = ascii '['
    · have hne : l ≠ [] := by
        rintro rfl
        exact hopen.currChar_ne isAtEndOfLine_nil hcond
      have hlt : l.tail.length < l.length := tail_length_lt hcond hopen
      -- the two scans stop at the same places of the line
      have hparam : scanUntil isAtConditionSeparator (l.tail ++ tail)
          = scanUntil isAtConditionSeparator l.tail ++ tail := by
        apply scanUntil_append
        · intro s hs
          simp only [isAtConditionSeparator, isAtEndOfLine_append htail hs, currChar_append hs]
        · simp only [isAtConditionSeparator, htail, Bool.true_or, or_true]
      have hparamSuffix := scanUntil_suffix isAtConditionSeparator l.tail
      rw [if_neg (not_not.mpr ((hopen.currChar_append_iff htail).mpr hcond)), if_neg (not_not.mpr hcond),
        tail_append hne, hparam]
      generalize scanUntil isAtConditionSeparator l.tail = paramStop at hparamSuffix ⊢
      have hparamStop : Unbroken paramStop := hl.tail.suffix hparamSuffix
      rw [hparamStop.isAtEndOfLine_append htail, hparamStop.skipRestOfLine_append htail]
      by_cases hend : isAtEndOfLine paramStop = true
      · rw [if_pos hend, if_pos hend]
        rfl
      · have hpne : paramStop ≠ [] := by
          rintro rfl
          exact hend isAtEndOfLine_nil
        rw [if_neg hend, if_neg hend, currChar_append hpne, tail_append hpne]
        split
        · rfl
        · have hpattern : scanUntil isAtConditionEnd (paramStop.tail ++ tail)
              = scanUntil isAtConditionEnd paramStop.tail ++ tail := by
            apply scanUntil_append
            · intro s hs
              simp only [isAtConditionEnd, isAtEndOfLine_append htail hs, currChar_append hs]
            · simp only [isAtConditionEnd, htail, Bool.true_or, or_true]
          have hpatternSuffix := scanUntil_suffix isAtConditionEnd paramStop.tail
          rw [hpattern]
          generalize scanUntil isAtConditionEnd paramStop.tail = patternStop at hpatternSuffix ⊢
          have hpatternStop : Unbroken patternStop := hparamStop.tail.suffix hpatternSuffix
          rw [hpatternStop.isAtEndOfLine_append htail, hpatternStop.skipRestOfLine_append htail]
          by_cases hend' : isAtEndOfLine patternStop = true
          · rw [if_pos hend', if_pos hend']
            rfl
          · have hqne : patternStop ≠ [] := by
              rintro rfl
              exact hend' isAtEndOfLine_nil
            have hnext : skipWhitespaceAndComments patternStop.tail <:+ l.tail :=
              (skipWhitespaceAndComments_suffix _).trans ((tail_suffix _).trans
                (hpatternSuffix.trans ((tail_suffix _).trans hparamSuffix)))
            have hle := hnext.length_le
            rw [if_neg hend', if_neg hend', slice_append hparamSuffix, slice_append hpatternSuffix, tail_append hqne,
              skipWhitespaceAndComments_append hpatternStop.tail htail]
            exact ih fuel' _ (hl.tail.suffix hnext) (by omega) (by omega)
    · rw [if_pos (mt (hopen.currChar_append_iff htail).mp hcond), if_pos hcond]
      rfl

theorem parseNonListAssignmentRHS_extend (hl : Unbroken l) (htail : isAtEndOfLine tail = true) :
    parseNonListAssignmentRHS (l ++ tail)
      = (parseNonListAssignmentRHS l).map fun r => (r.1, r.2 ++ tail) := by
  have hmark : Unbroken (skipWhitespaceAndComments l) := hl.suffix (skipWhitespaceAndComments_suffix _)
  rw [parseNonListAssignmentRHS_eq, parseNonListAssignmentRHS_eq]
  dsimp only
  rw [skipWhitespaceAndComments_append hl htail]
  generalize skipWhitespaceAndComments l = mark at hmark ⊢
  have hstop : scanUntil isAtEndOfValue (mark ++ tail) = scanUntil isAtEndOfValue mark ++ tail := by
    apply scanUntil_append
    · intro s hs
      simp only [isAtEndOfValue, isAtEndOfLine_append htail hs, isAtStartOfComment_append htail]
    · simp only [isAtEndOfValue, htail, Bool.true_or, or_true]
  have hsuffix := scanUntil_suffix isAtEndOfValue mark
  have hafter : Unbroken (scanUntil isAtEndOfValue mark) := hmark.suffix hsuffix
  rw [hmark.isAtEndOfLine_append htail, hstop, slice_append hsuffix, hafter.skipRestOfLine_append htail]
  split
  · rfl
  · rfl

/-- Where the name of an assignment ends. -/
def nameEnd : Text := scanUntil (fun rest => !isValidMacroNameNthChar (currChar rest)) line.tail

/-- An assignment up to the end of its conditions, and the text after them. -/
def Head (line after : Text) : Prop :=
  isValidMacroName1stChar (currChar line) = true ∧ Conditions (skipWhitespaceAndComments (nameEnd line)) after

theorem nameEnd_append (hne : l ≠ []) (htail : isAtEndOfLine tail = true) :
    nameEnd (l ++ tail) = nameEnd l ++ tail := by
  rw [nameEnd, tail_append hne]
  apply scanUntil_append
  · intro s hs
    rw [currChar_append hs]
  · right
    rcases currChar_of_isAtEndOfLine htail with h | h | h | h <;> rw [h] <;> rfl

theorem nameEnd_suffix (l : Text) : nameEnd l <:+ l := (scanUntil_suffix _ _).trans (tail_suffix l)

variable (endsInBackslash : Text → Bool) (trimmed : Text → Text) (path : Text)

theorem parseChunks_of_last {chunk : Option Text} (fuel : Nat)
    (h : parseNonListAssignmentRHS s.rest = .ok (chunk, after))
    (hlast : ∀ c, chunk = some c → endsInBackslash c = false) :
    parseChunks endsInBackslash trimmed (fuel + 1) s = .ok (chunk.toList, s.moveTo after) := by
  rw [parseChunks, h]
  dsimp only [bind, Except.bind]
  cases chunk with
  | none => rfl
  | some c =>
    dsimp only
    rw [hlast c rfl, if_neg Bool.false_ne_true]
    rfl

/-- A value that ends on its line means the same in its file, if there is something where the equals sign should be. -/
theorem parseValue_extend (start name : Text) (conditions : List (Text × Text)) (hs : Unbroken s.rest)
    (htail : isAtEndOfLine tail = true) (h : tail = [] ∨ s.rest ≠ [])
    (hlast : ∀ value chunk after, s.rest = ascii '=' :: value →
      parseNonListAssignmentRHS value = .ok (some chunk, after) → endsInBackslash chunk = false) :
    parseValue endsInBackslash trimmed path (start ++ tail) name conditions (s.extend n tail)
      = (parseValue endsInBackslash trimmed path start name conditions s).map (extend n tail) := by
  have hequals : Inner (ascii '=') := by decide
  unfold parseValue
  rw [State.extend_rest, currChar_append_of h]
  by_cases hvalue : currChar s.rest = ascii '='
  · have hcons : s.rest = ascii '=' :: s.rest.tail := cons_tail_of_currChar hvalue hequals
    have hne : s.rest ≠ [] := by
      rw [hcons]
      exact cons_ne_nil _ _
    obtain ⟨chunk, after, hchunk, -⟩ := parseNonListAssignmentRHS_ends s.rest.tail
    have hchunk' : parseNonListAssignmentRHS (s.rest.tail ++ tail) = .ok (chunk, after ++ tail) := by
      rw [parseNonListAssignmentRHS_extend hs.tail htail, hchunk]
      rfl
    have hlast' : ∀ c, chunk = some c → endsInBackslash c = false := by
      rintro c rfl
      exact hlast _ c after hcons hchunk
    have halone := parseChunks_of_last endsInBackslash trimmed (s := s.moveTo s.rest.tail) s.rest.tail.length hchunk
      hlast'
    have hwhole := parseChunks_of_last endsInBackslash trimmed (s := (s.extend n tail).moveTo (s.rest.tail ++ tail))
      (s.rest.tail ++ tail).length hchunk' hlast'
    rw [if_neg (not_not.mpr hvalue), if_neg (not_not.mpr hvalue), assert, if_pos hvalue, tail_append hne]
    dsimp only [bind, Except.bind]
    rw [halone, hwhole]
    dsimp only
    rw [column_append, show column (start ++ tail) (((s.extend n tail).moveTo (s.rest.tail ++ tail)).moveTo
      (after ++ tail)).rest = column start after from column_append start]
    rfl
  · rw [if_pos hvalue, if_pos hvalue, hs.skipRestOfLine_append htail]
    rfl

/-- After whitespace and comments, at the start of a name, there is an assignment. -/
theorem parseMacroValueAssignment_eq (hskip : skipWhitespaceAndComments s.rest = s.rest)
    (hname : isValidMacroName1stChar (currChar s.rest) = true) :
    parseMacroValueAssignment endsInBackslash trimmed path s =
      (parseConditions s.currLine ((skipWhitespaceAndComments (nameEnd s.rest)).length + 1) []
        (skipWhitespaceAndComments (nameEnd s.rest))).bind fun
      | .failed message rest => .ok ([unexpected message s.currLine], s.moveTo rest)
      | .collected conditions rest =>
        parseValue endsInBackslash trimmed path s.rest (slice s.rest (nameEnd s.rest)) conditions (s.moveTo rest) := by
  have hend : isAtEndOfLine s.rest = false := by
    by_contra h
    rcases currChar_of_isAtEndOfLine (by simpa using h) with h' | h' | h' | h' <;>
    · rw [h'] at hname
      cases hname
  unfold parseMacroValueAssignment
  dsimp only
  rw [hskip, hend, if_neg Bool.false_ne_true, hname, Bool.not_true, if_neg Bool.false_ne_true, assert, if_pos rfl]
  rfl

section

variable (hs : Unbroken s.rest)
include hs

/-- In its file, an assignment has the conditions that it has alone. -/
theorem parseMacroValueAssignment_append (hskip : skipWhitespaceAndComments s.rest = s.rest)
    (hname : isValidMacroName1stChar (currChar s.rest) = true) (htail : isAtEndOfLine tail = true) :
    parseMacroValueAssignment endsInBackslash trimmed path (s.extend n tail) =
      (parseConditions s.currLine ((skipWhitespaceAndComments (nameEnd s.rest)).length + 1) []
        (skipWhitespaceAndComments (nameEnd s.rest))).bind fun
      | .failed message rest =>
        .ok ([unexpected (message.shift n) (s.currLine + n)], (s.moveTo rest).extend n tail)
      | .collected conditions rest =>
        parseValue endsInBackslash trimmed path (s.rest ++ tail) (slice s.rest (nameEnd s.rest)) conditions
          ((s.moveTo rest).extend n tail) := by
  have hne : s.rest ≠ [] := by
    intro hnil
    rw [hnil] at hname
    cases hname
  have hskip' : skipWhitespaceAndComments (s.extend n tail).rest = (s.extend n tail).rest := by
    rw [State.extend_rest, skipWhitespaceAndComments_append hs htail, hskip]
  have hname' : isValidMacroName1stChar (currChar (s.extend n tail).rest) = true := by
    rw [State.extend_rest, currChar_append hne]
    exact hname
  have hnameEnd : Unbroken (nameEnd s.rest) := hs.suffix (nameEnd_suffix _)
  have hconditions : Unbroken (skipWhitespaceAndComments (nameEnd s.rest)) :=
    hnameEnd.suffix (skipWhitespaceAndComments_suffix _)
  rw [parseMacroValueAssignment_eq endsInBackslash trimmed path hskip' hname', State.extend_rest, State.extend_currLine,
    nameEnd_append hne htail, skipWhitespaceAndComments_append hnameEnd htail, slice_append (nameEnd_suffix _),
    parseConditions_extend htail s.currLine _ _ [] hconditions (lt_succ_self _)
      (lt_succ_of_le (by rw [length_append]; exact le_add_right _ _))]
  cases parseConditions s.currLine ((skipWhitespaceAndComments (nameEnd s.rest)).length + 1) []
      (skipWhitespaceAndComments (nameEnd s.rest)) with
  | error violation => rfl
  | ok r =>
    cases r with
    | failed message rest => rfl
    | collected conditions rest => rfl

theorem unbroken_conditions :
    Unbroken (skipWhitespaceAndComments (nameEnd s.rest)) :=
  hs.suffix ((skipWhitespaceAndComments_suffix _).trans (nameEnd_suffix _))

/-- An assignment that ends on its line means the same in its file, if there is something after its conditions. -/
theorem parseMacroValueAssignment_extend (hskip : skipWhitespaceAndComments s.rest = s.rest)
    (hname : isValidMacroName1stChar (currChar s.rest) = true) (htail : isAtEndOfLine tail = true)
    (h : tail = [] ∨ ¬Head s.rest []) (hlast : ∀ value chunk after, Head s.rest (ascii '=' :: value) →
      parseNonListAssignmentRHS value = .ok (some chunk, after) → endsInBackslash chunk = false) :
    parseMacroValueAssignment endsInBackslash trimmed path (s.extend n tail)
      = (parseMacroValueAssignment endsInBackslash trimmed path s).map (extend n tail) := by
  have hconditions := unbroken_conditions hs
  obtain ⟨r, hr, hsuffix, -⟩ := parseConditions_total s.currLine _ [] (skipWhitespaceAndComments (nameEnd s.rest))
    (lt_succ_self _)
  rw [parseMacroValueAssignment_append endsInBackslash trimmed path hs hskip hname htail,
    parseMacroValueAssignment_eq endsInBackslash trimmed path hskip hname, hr]
  cases r with
  | failed message rest => rfl
  | collected conditions rest =>
    have hhead : Head s.rest rest :=
      ⟨hname, (parseConditions_collected_iff s.currLine _ [] hconditions (lt_succ_self _)).mp ⟨conditions, hr⟩⟩
    have hrest : tail = [] ∨ rest ≠ [] := h.imp_right fun hno hnil => hno (hnil ▸ hhead)
    refine parseValue_extend endsInBackslash trimmed path _ _ _ (hconditions.suffix hsuffix) htail hrest ?_
    intro value chunk after heq hchunk
    exact hlast value chunk after ((show rest = _ from heq) ▸ hhead) hchunk

/-- An assignment with nothing after its conditions quotes the character at the end of the line. -/
theorem parseMacroValueAssignment_of_nothing
    (hskip : skipWhitespaceAndComments s.rest = s.rest) (htail : isAtEndOfLine tail = true) (h : Head s.rest []) :
    ∃ s', parseMacroValueAssignment endsInBackslash trimmed path (s.extend n tail)
      = .ok ([.handleDiagnostic ⟨.missingEqualsInAssignment, .error, .expectedEquals (currChar tail),
          s.currLine + n⟩], s') := by
  obtain ⟨conditions, hr⟩ :=
    (parseConditions_collected_iff s.currLine _ [] (unbroken_conditions hs) (lt_succ_self _)).mpr h.2
  have hequals : currChar tail ≠ ascii '=' := Inner.currChar_ne (by decide) htail
  rw [parseMacroValueAssignment_append endsInBackslash trimmed path hs hskip h.1 htail, hr]
  refine ⟨((s.moveTo []).extend n tail).moveTo (skipRestOfLine tail), ?_⟩
  show parseValue endsInBackslash trimmed path _ _ _ ((s.moveTo []).extend n tail) = _
  unfold parseValue
  rw [if_pos (show currChar ((s.moveTo []).extend n tail).rest ≠ ascii '=' from hequals)]
  rfl

end

/-! ## Lines -/

/-- A line that means the same in a file where this text follows it. -/
def LineLocal (line tail : Text) : Prop :=
  (currChar (skipWhitespaceAndComments line) = ascii '#' → DirectiveLocal (skipWhitespaceAndComments line) tail) ∧
    ¬Head (skipWhitespaceAndComments line) []

/-- An assignment that ends in a continuation backslash. -/
def Continued (line : Text) : Prop :=
  ∃ value chunk after, Head (skipWhitespaceAndComments line) (ascii '=' :: value) ∧
    parseNonListAssignmentRHS value = .ok (some chunk, after) ∧ endsInBackslash chunk = true

theorem parseLine_extend (hs : Unbroken s.rest) (htail : isAtEndOfLine tail = true)
    (h : tail = [] ∨ LineLocal s.rest tail) (hlast : ¬Continued endsInBackslash s.rest) :
    parseLine answers endsInBackslash trimmed path (s.extend n tail)
      = (parseLine answers endsInBackslash trimmed path s).map (extend n tail) := by
  have hidem := skipWhitespaceAndComments_idem s.rest
  have hskip : Unbroken (skipWhitespaceAndComments s.rest) := hs.suffix (skipWhitespaceAndComments_suffix _)
  unfold parseLine
  dsimp only
  rw [State.extend_rest, State.extend_currLine, skipWhitespaceAndComments_append hs htail,
    hskip.isAtEndOfLine_append htail]
  by_cases hnil : skipWhitespaceAndComments s.rest = []
  · rw [hnil, isAtEndOfLine_nil, if_pos rfl, if_pos rfl]
    rfl
  · rw [hskip.ne hnil, if_neg Bool.false_ne_true, if_neg Bool.false_ne_true, currChar_append hnil, ← State.extend_moveTo]
    by_cases hhash : currChar (skipWhitespaceAndComments s.rest) = ascii '#'
    · rw [if_pos hhash, if_pos hhash,
        parsePreprocessorDirective_extend answers (s := s.moveTo (skipWhitespaceAndComments s.rest)) hskip hnil
          htail hidem hhash,
        parsePreprocessorDirective_eq answers hidem hhash]
      have hdirective : tail = [] ∨ DirectiveLocal (skipWhitespaceAndComments s.rest) tail :=
        h.imp_right fun hlocal => hlocal.1 hhash
      rw [parseDirective_extend answers (s := s.moveTo (skipWhitespaceAndComments s.rest)) hskip hnil htail hdirective]
      rfl
    · rw [if_neg hhash, if_neg hhash]
      by_cases hname : isValidMacroName1stChar (currChar (skipWhitespaceAndComments s.rest)) = true
      · rw [if_pos hname, if_pos hname]
        apply parseMacroValueAssignment_extend endsInBackslash trimmed path hskip hidem hname htail
        · exact h.imp_right fun hlocal => hlocal.2
        · intro value chunk after hhead hchunk
          by_contra hcontinued
          exact hlast ⟨value, chunk, after, hhead, hchunk, by simpa using hcontinued⟩
      · rw [if_neg hname, if_neg hname, Bool.not_false, if_pos rfl, if_pos rfl, hskip.skipRestOfLine_append htail]
        rfl

/-- A line that is not local gives another message in its file. -/
theorem parseLine_differs (hs : Unbroken s.rest) (htail : isAtEndOfLine tail = true) (htne : tail ≠ [])
    (h : ¬LineLocal s.rest tail) :
    ∃ c c' s₁ s₂, parseLine answers endsInBackslash trimmed path (s.extend n tail) = .ok ([c], s₁) ∧
      parseLine answers endsInBackslash trimmed path s = .ok ([c'], s₂) ∧ c ≠ c'.shift n := by
  have hidem := skipWhitespaceAndComments_idem s.rest
  have hskip : Unbroken (skipWhitespaceAndComments s.rest) := hs.suffix (skipWhitespaceAndComments_suffix _)
  have hnil : skipWhitespaceAndComments s.rest ≠ [] := by
    intro hnil
    refine h ⟨?_, ?_⟩
    · intro hhash
      rw [hnil] at hhash
      cases hhash
    · intro hhead
      rw [hnil] at hhead
      cases hhead.1
  unfold parseLine
  dsimp only
  rw [State.extend_rest, State.extend_currLine, skipWhitespaceAndComments_append hs htail,
    hskip.isAtEndOfLine_append htail, hskip.ne hnil, if_neg Bool.false_ne_true, if_neg Bool.false_ne_true,
    currChar_append hnil, ← State.extend_moveTo]
  by_cases hhash : currChar (skipWhitespaceAndComments s.rest) = ascii '#'
  · have hdirective : ¬DirectiveLocal (skipWhitespaceAndComments s.rest) tail := by
      intro hlocal
      refine h ⟨fun _ => hlocal, ?_⟩
      intro hhead
      have hname := hhead.1
      rw [hhash] at hname
      cases hname
    rw [if_pos hhash, if_pos hhash,
      parsePreprocessorDirective_extend answers (s := s.moveTo (skipWhitespaceAndComments s.rest)) hskip hnil
        htail hidem hhash,
      parsePreprocessorDirective_eq answers hidem hhash]
    obtain ⟨c, c', hc, hc', hne⟩ := parseDirective_differs answers (n := n)
      (s := s.moveTo (skipWhitespaceAndComments s.rest)) hskip hnil htail htne hdirective
    exact ⟨c, c', _, _, congrArg Except.ok (Prod.ext hc rfl), congrArg Except.ok (Prod.ext hc' rfl), hne⟩
  · have hhead : Head (skipWhitespaceAndComments s.rest) [] := by
      by_contra hno
      exact h ⟨fun hhash' => absurd hhash' hhash, hno⟩
    obtain ⟨s₁, hwhole⟩ := parseMacroValueAssignment_of_nothing endsInBackslash trimmed path (n := n)
      (s := s.moveTo (skipWhitespaceAndComments s.rest)) hskip hidem htail hhead
    obtain ⟨s₂, halone⟩ := parseMacroValueAssignment_of_nothing endsInBackslash trimmed path (n := 0)
      (s := s.moveTo (skipWhitespaceAndComments s.rest)) hskip hidem isAtEndOfLine_nil hhead
    have hself : (s.moveTo (skipWhitespaceAndComments s.rest)).extend 0 []
        = s.moveTo (skipWhitespaceAndComments s.rest) := by
      simp only [State.extend, State.moveTo, append_nil, Nat.add_zero]
    rw [hself] at halone
    rw [if_neg hhash, if_neg hhash, if_pos hhead.1, if_pos hhead.1]
    refine ⟨_, _, s₁, s₂, hwhole, halone, ?_⟩
    intro heq
    have hchar : currChar tail = currChar [] := by
      injection heq with heq
      injection heq with _ _ heq _
      injection heq
    rcases currChar_terminator htail htne with h | h | h <;>
    · rw [h] at hchar
      cases hchar

theorem parseLine_alone (requests : Nat) (hl : Unbroken l) :
    ∃ calls requests', parseLine answers endsInBackslash trimmed path ⟨l, 1, requests⟩
      = .ok (calls, ⟨[], 1, requests'⟩) := by
  obtain ⟨calls, s', hr, hend, hs', hline⟩ := parseLine_ends answers endsInBackslash trimmed path ⟨l, 1, requests⟩
  have hnil : s'.rest = [] := hl.eq_nil hs' hend
  have hline' : s'.currLine = 1 := hline hl
  refine ⟨calls, s'.requests, ?_⟩
  rw [hr, ← hnil, ← hline']

/-- Parsing a line alone takes one turn of the loop. -/
theorem parse_alone (requests : Nat) (hl : Unbroken l) :
    parse answers endsInBackslash trimmed path requests l
      = parseLine answers endsInBackslash trimmed path ⟨l, 1, requests⟩ := by
  by_cases hnil : l = []
  · subst hnil
    rfl
  · obtain ⟨calls, requests', hr⟩ := parseLine_alone answers endsInBackslash trimmed path requests hl
    obtain ⟨k, hk⟩ : ∃ k, l.length = k + 1 := exists_eq_succ_of_ne_zero (mt length_eq_zero_iff.mp hnil)
    rw [parse, parseLoop, if_neg hnil, hr, hk]
    simp only [bind, Except.bind, isAtEndOfLine_nil, assert, if_true, scanEOL_nil, parseLoop, append_nil]

end Simulation

/-! ## Files -/

inductive Terminator where
  | lf
  | cr
  | crlf
  | lineSeparator
  | paragraphSeparator
deriving DecidableEq, Repr

def Terminator.bytes : Terminator → Text
  | .lf => [10]
  | .cr => [13]
  | .crlf => [13, 10]
  | .lineSeparator => [0xE2, 0x80, 0xA8]
  | .paragraphSeparator => [0xE2, 0x80, 0xA9]

/-- A line of a text, with the terminator after it; the last line may have none. -/
structure Line where
  text : Text
  unbroken : Unbroken text
  terminator : Option Terminator

def Line.bytes (line : Line) : Text := line.text ++ (line.terminator.map Terminator.bytes).getD []

/-- The terminator at an end of line. A carriage return and a newline are one terminator. -/
def terminatorAt (rest : Text) : Option Terminator :=
  if currChar rest = 10 then some .lf
  else if currChar rest = 13 then if nextChar rest = 10 then some .crlf else some .cr
  else if isAtUnicodeSeparator rest then
    if nextNextChar rest = 0xA8 then some .lineSeparator else some .paragraphSeparator
  else none

theorem exists_cons_of_headD {l : Text} {c : UInt8} (h : l.headD 0 = c) (hc : c ≠ 0) : ∃ cs, l = c :: cs := by
  cases l with
  | nil => exact absurd h.symm hc
  | cons d ds => exact ⟨ds, by rw [← h]; rfl⟩

variable {tail : Text}

section

variable (htail : isAtEndOfLine tail = true)
include htail

theorem terminatorAt_spec (hne : tail ≠ []) :
    ∃ t, terminatorAt tail = some t ∧ advancement tail = t.bytes.length ∧
      tail = t.bytes ++ tail.drop (advancement tail) := by
  simp only [isAtEndOfLine, hne, false_or, decide_eq_true_eq] at htail
  rcases htail with h | h | h
  · obtain ⟨cs, rfl⟩ := exists_cons_of_headD h (by decide)
    exact ⟨.lf, rfl, rfl, rfl⟩
  · obtain ⟨cs, rfl⟩ := exists_cons_of_headD h (by decide)
    by_cases hnext : nextChar (13 :: cs) = 10
    · obtain ⟨ds, rfl⟩ := exists_cons_of_headD hnext (by decide)
      exact ⟨.crlf, rfl, rfl, rfl⟩
    · have hadv : advancement (13 :: cs) = 1 := if_neg hnext
      rw [hadv]
      exact ⟨.cr, if_neg hnext, rfl, rfl⟩
  · simp only [isAtUnicodeSeparator, decide_eq_true_eq] at h
    obtain ⟨h1, h2, h3⟩ := h
    obtain ⟨cs, rfl⟩ := exists_cons_of_headD h1 (by decide)
    obtain ⟨ds, rfl⟩ := exists_cons_of_headD h2 (by decide)
    rcases h3 with h3 | h3
    · obtain ⟨es, rfl⟩ := exists_cons_of_headD h3 (by decide)
      exact ⟨.lineSeparator, rfl, rfl, rfl⟩
    · obtain ⟨es, rfl⟩ := exists_cons_of_headD h3 (by decide)
      exact ⟨.paragraphSeparator, rfl, rfl, rfl⟩

theorem advancement_pos (hne : tail ≠ []) : 0 < advancement tail := by
  obtain ⟨t, -, hadv, -⟩ := terminatorAt_spec htail hne
  rw [hadv]
  cases t <;> decide

theorem drop_advancement_length (hne : tail ≠ []) :
    (tail.drop (advancement tail)).length < tail.length := by
  have hpos := advancement_pos htail hne
  have hpos' := length_pos_of_ne_nil hne
  rw [length_drop]
  omega

end

/-- A text is what a scan to the end of the line passes over, and the rest. -/
theorem line_spec (rest : Text) :
    rest = slice rest (skipRestOfLine rest) ++ skipRestOfLine rest ∧ Unbroken (slice rest (skipRestOfLine rest)) := by
  have hend := skipRestOfLine_isAtEndOfLine rest
  obtain ⟨passed, hpassed, hgo⟩ := Scan.scan_passed isAtEndOfLine rest
  change rest = passed ++ skipRestOfLine rest at hpassed
  have hslice : slice rest (skipRestOfLine rest) = passed := by
    generalize skipRestOfLine rest = stop at hpassed
    rw [hpassed, slice, length_append, Nat.add_sub_cancel, take_left]
  rw [hslice]
  refine ⟨hpassed, ?_⟩
  intro s hs hne
  rw [← isAtEndOfLine_append hend hne]
  exact hgo s hs hne

/-- The lines of a text. Every line takes at least one byte, its own or its terminator's. -/
def splitLines : Nat → Text → List Line
  | 0, _ => []
  | fuel + 1, rest =>
    if rest = [] then []
    else
      let tail := skipRestOfLine rest
      ⟨slice rest tail, (line_spec rest).2, terminatorAt tail⟩ :: splitLines fuel (tail.drop (advancement tail))

theorem splitLines_nil (fuel : Nat) : splitLines fuel [] = [] := by
  cases fuel with
  | zero => rfl
  | succ fuel => rfl

def lines (bytes : Text) : List Line := splitLines (bytes.length + 1) bytes

section Files

variable (answers : Nat → Bool) (endsInBackslash : Text → Bool) (trimmed : Text → Text) (path : Text)

/-- Each line parsed alone, the calls of each moved by the number of terminators before it. The delegate is the same
all the way. -/
def linesAlone : Nat → Nat → List Line → Except Violation (List DelegateCall)
  | _, _, [] => .ok []
  | requests, n, line :: lines => do
    let (calls, s) ← parse answers endsInBackslash trimmed path requests line.text
    let more ← linesAlone s.requests (n + 1) lines
    .ok (calls.map (DelegateCall.shift n) ++ more)

def Line.Local (line : Line) : Prop := ∀ t, line.terminator = some t → LineLocal line.text t.bytes

theorem parseLoop_total (fuel : Nat) (s : State) (hfuel : s.rest.length < fuel) :
    ∃ calls s', parseLoop answers endsInBackslash trimmed path fuel s = .ok (calls, s') ∧ s'.rest = [] := by
  induction fuel generalizing s with
  | zero => exact absurd hfuel (not_lt_zero _)
  | succ fuel ih =>
    rw [parseLoop]
    by_cases hnil : s.rest = []
    · rw [if_pos hnil]
      exact ⟨[], s, rfl, hnil⟩
    · obtain ⟨calls, s', hr, hend, hs', -⟩ := parseLine_ends answers endsInBackslash trimmed path s
      have hlt : (scanEOL s').rest.length < s.rest.length := by
        by_cases hnil' : s'.rest = []
        · rw [scanEOL_nil hnil', hnil']
          exact length_pos_of_ne_nil hnil
        · rw [scanEOL, if_neg (Nat.ne_of_gt (advancement_pos hend hnil'))]
          exact Nat.lt_of_lt_of_le (drop_advancement_length hend hnil') hs'.length_le
      obtain ⟨more, s'', hmore, hdone⟩ := ih (scanEOL s') (Nat.lt_of_lt_of_le hlt (le_of_lt_succ hfuel))
      rw [if_neg hnil, hr]
      simp only [bind, Except.bind, assert, hend, if_true, hmore]
      exact ⟨calls ++ more, s'', rfl, hdone⟩

/-- Only the first character of what follows a line matters to it. -/
theorem LineLocal.append_iff {line : Text} (t : Terminator) (rest : Text) :
    LineLocal line (t.bytes ++ rest) ↔ LineLocal line t.bytes := by
  have hne : t.bytes ≠ [] := by cases t <;> decide
  unfold LineLocal DirectiveLocal
  rw [isAtWhitespace_append hne]

/-- The terminators in a line's bytes are those of the text. -/
theorem splitLines_flatMap (fuel : Nat) (rest : Text) (hfuel : rest.length < fuel) :
    (splitLines fuel rest).flatMap Line.bytes = rest := by
  induction fuel generalizing rest with
  | zero => exact absurd hfuel (not_lt_zero _)
  | succ fuel ih =>
    rw [splitLines]
    by_cases hnil : rest = []
    · rw [if_pos hnil, hnil]
      rfl
    · rw [if_neg hnil, flatMap_cons]
      have hend := skipRestOfLine_isAtEndOfLine rest
      have hline := (line_spec rest).1
      have hle : (skipRestOfLine rest).length ≤ rest.length := Scan.scan_length_le _ _
      dsimp only [Line.bytes]
      by_cases htail : skipRestOfLine rest = []
      · rw [htail] at hline ⊢
        rw [drop_nil, splitLines_nil, flatMap_nil, append_nil]
        exact hline.symm
      · obtain ⟨t, ht, -, htail'⟩ := terminatorAt_spec hend htail
        have hlt := drop_advancement_length hend htail
        rw [ht, ih _ (by omega), append_assoc]
        show slice rest (skipRestOfLine rest) ++ (t.bytes ++ _) = rest
        rw [← htail', ← hline]

variable {calls : List DelegateCall}

theorem linesAlone_cons (requests n : Nat) (line : Line) (lines : List Line) {requests' : Nat}
    (h : parseLine answers endsInBackslash trimmed path ⟨line.text, 1, requests⟩
      = .ok (calls, ⟨[], 1, requests'⟩)) :
    linesAlone answers endsInBackslash trimmed path requests n (line :: lines)
      = (linesAlone answers endsInBackslash trimmed path requests' (n + 1) lines).map
        (calls.map (DelegateCall.shift n) ++ ·) := by
  rw [linesAlone, parse_alone answers endsInBackslash trimmed path requests line.unbroken, h]
  dsimp only [bind, Except.bind]
  cases linesAlone answers endsInBackslash trimmed path requests' (n + 1) lines with
  | error violation => rfl
  | ok more => rfl

/-- What a turn of the loop adds to what the rest of it does. -/
theorem parseLoop_turn {fuel : Nat} {s s₁ s₂ : State} {first : List DelegateCall} (hne : s.rest ≠ [])
    (hfirst : parseLine answers endsInBackslash trimmed path s = .ok (first, s₁))
    (h : parseLoop answers endsInBackslash trimmed path (fuel + 1) s = .ok (calls, s₂)) :
    ∃ more, parseLoop answers endsInBackslash trimmed path fuel (scanEOL s₁) = .ok (more, s₂) ∧ calls = first ++ more := by
  rw [parseLoop, if_neg hne, hfirst] at h
  dsimp only [bind, Except.bind] at h
  split at h
  · cases h
  · split at h
    · cases h
    · rename_i more hmore
      cases h
      exact ⟨more.1, hmore, rfl⟩

theorem map_append_eq_ok_iff {more : List DelegateCall} (r : Except Violation (List DelegateCall)) :
    r.map (calls ++ ·) = .ok (calls ++ more) ↔ r = .ok more := by
  cases r with
  | error violation => exact iff_of_false (fun h => nomatch h) (fun h => nomatch h)
  | ok more' =>
    constructor
    · intro h
      injection h with h
      rw [append_cancel_left h]
    · intro h
      injection h with h
      rw [h]
      rfl

/-- One line: it makes the calls that it makes alone, and then the rest decides, or it makes another call. -/
theorem parseLoop_line {line : Line} {tail : Text} {lines : List Line} {fuel n requests : Nat} {s : State}
    (hne : line.text ++ tail ≠ []) (htail : isAtEndOfLine tail = true)
    (hterminator : line.terminator = terminatorAt tail) (hlast : ¬Continued endsInBackslash line.text)
    (h : parseLoop answers endsInBackslash trimmed path (fuel + 1) ⟨line.text ++ tail, n + 1, requests⟩ = .ok (calls, s))
    (hrest : ∀ requests' more,
      parseLoop answers endsInBackslash trimmed path fuel (scanEOL ⟨tail, n + 1, requests'⟩) = .ok (more, s) →
        (linesAlone answers endsInBackslash trimmed path requests' (n + 1) lines = .ok more
          ↔ ∀ line ∈ lines, line.Local)) :
    linesAlone answers endsInBackslash trimmed path requests n (line :: lines) = .ok calls
      ↔ line.Local ∧ ∀ line ∈ lines, line.Local := by
  have hstate : (⟨line.text ++ tail, n + 1, requests⟩ : State) = State.extend n tail ⟨line.text, 1, requests⟩ := by
    rw [State.extend, Nat.add_comm]
  -- the terminator decides whether the line is local
  have hlocal : line.Local ↔ tail = [] ∨ LineLocal line.text tail := by
    by_cases hnil : tail = []
    · subst hnil
      refine iff_of_true ?_ (.inl rfl)
      intro t ht
      rw [hterminator] at ht
      cases ht
    · obtain ⟨t, ht, -, htail'⟩ := terminatorAt_spec htail hnil
      rw [or_iff_right hnil, htail', LineLocal.append_iff, Line.Local, hterminator, ht]
      simp only [Option.some.injEq, forall_eq']
  obtain ⟨first, requests', halone⟩ :=
    parseLine_alone answers endsInBackslash trimmed path requests line.unbroken
  rw [linesAlone_cons answers endsInBackslash trimmed path requests n line lines halone]
  by_cases hl : tail = [] ∨ LineLocal line.text tail
  · have hwhole : parseLine answers endsInBackslash trimmed path ⟨line.text ++ tail, n + 1, requests⟩
        = .ok (first.map (DelegateCall.shift n), ⟨tail, n + 1, requests'⟩) := by
      rw [hstate, parseLine_extend answers endsInBackslash trimmed path line.unbroken htail hl hlast, halone]
      simp only [Except.map, extend, State.extend, nil_append, Nat.add_comm]
    obtain ⟨more, hmore, rfl⟩ := parseLoop_turn answers endsInBackslash trimmed path hne hwhole h
    rw [map_append_eq_ok_iff, hrest requests' more hmore, and_iff_right (hlocal.mpr hl)]
  · have htne : tail ≠ [] := fun hnil => hl (.inl hnil)
    obtain ⟨c, c', s₁, s₂, hwhole, halone', hcne⟩ := parseLine_differs answers endsInBackslash trimmed path (n := n)
      (s := ⟨line.text, 1, requests⟩) line.unbroken htail htne fun hno => hl (.inr hno)
    rw [← hstate] at hwhole
    obtain ⟨more, -, rfl⟩ := parseLoop_turn answers endsInBackslash trimmed path hne hwhole h
    have hfirst : first = [c'] := by
      rw [halone] at halone'
      cases halone'
      rfl
    refine iff_of_false ?_ fun hno => hl (hlocal.mp hno.1)
    rw [hfirst]
    intro heq
    cases hlines : linesAlone answers endsInBackslash trimmed path requests' (n + 1) lines with
    | error violation =>
      rw [hlines] at heq
      cases heq
    | ok more' =>
      rw [hlines] at heq
      injection heq with heq
      injection heq with heq
      exact hcne heq.symm

/-- The loop over the lines makes the calls of each line alone if and only if every line is local. -/
theorem parseLoop_local (fuel fuel' : Nat) (rest : Text) (n requests : Nat) (hfuel : rest.length < fuel)
    (hfuel' : rest.length < fuel') {s : State}
    (h : parseLoop answers endsInBackslash trimmed path fuel ⟨rest, n + 1, requests⟩ = .ok (calls, s))
    (hlast : ∀ line ∈ splitLines fuel' rest, ¬Continued endsInBackslash line.text) :
    linesAlone answers endsInBackslash trimmed path requests n (splitLines fuel' rest) = .ok calls
      ↔ ∀ line ∈ splitLines fuel' rest, line.Local := by
  induction fuel generalizing fuel' rest n requests calls s with
  | zero => exact absurd hfuel (not_lt_zero _)
  | succ fuel ih =>
    obtain ⟨fuel', rfl⟩ := exists_eq_succ_of_ne_zero (Nat.ne_of_gt (zero_lt_of_lt hfuel'))
    rw [splitLines] at hlast ⊢
    by_cases hnil : rest = []
    · rw [parseLoop, if_pos hnil] at h
      rw [if_pos hnil]
      cases h
      exact iff_of_true rfl fun _ hmem => absurd hmem not_mem_nil
    · rw [if_neg hnil] at hlast ⊢
      have hline := (line_spec rest).1
      have hend := skipRestOfLine_isAtEndOfLine rest
      have hle : (skipRestOfLine rest).length ≤ rest.length := Scan.scan_length_le _ _
      rw [forall_mem_cons] at hlast ⊢
      refine parseLoop_line answers endsInBackslash trimmed path (hline ▸ hnil) hend rfl hlast.1 (hline ▸ h) ?_
      intro requests' more hmore
      by_cases htail : skipRestOfLine rest = []
      · obtain ⟨fuel, rfl⟩ : ∃ k, fuel = k + 1 :=
          exists_eq_succ_of_ne_zero (Nat.ne_of_gt (Nat.lt_of_lt_of_le (length_pos_of_ne_nil hnil)
            (le_of_lt_succ hfuel)))
        rw [scanEOL_nil htail, parseLoop, if_pos htail] at hmore
        cases hmore
        rw [htail, drop_nil, splitLines_nil]
        exact iff_of_true rfl fun _ hmem => absurd hmem not_mem_nil
      · have hlt := drop_advancement_length hend htail
        rw [scanEOL, if_neg (Nat.ne_of_gt (advancement_pos hend htail))] at hmore
        exact ih fuel' _ (n + 1) requests' (by omega) (by omega) hmore hlast.2

/-- Parsing a file reads it to its end with no assertion violated; and if none of its lines is an assignment that goes
on in the next line, it makes the calls that parsing each line alone makes if and only if every line with a
terminator is local. -/
theorem parse_lines (requests : Nat) (bytes : Text) :
    (lines bytes).flatMap Line.bytes = bytes ∧
      ∃ calls s, parse answers endsInBackslash trimmed path requests bytes = .ok (calls, s) ∧ s.rest = [] ∧
        ((∀ line ∈ lines bytes, ¬Continued endsInBackslash line.text) →
          (linesAlone answers endsInBackslash trimmed path requests 0 (lines bytes) = .ok calls
            ↔ ∀ line ∈ lines bytes, line.Local)) := by
  refine ⟨splitLines_flatMap _ bytes (lt_succ_self _), ?_⟩
  obtain ⟨calls, s, h, hrest⟩ :=
    parseLoop_total answers endsInBackslash trimmed path (bytes.length + 1) ⟨bytes, 1, requests⟩ (lt_succ_self _)
  refine ⟨calls, s, ?_, hrest, ?_⟩
  · simp only [parse, h, bind, Except.bind, assert, hrest, if_true]
  · intro hlast
    exact parseLoop_local answers endsInBackslash trimmed path _ _ bytes 0 requests (lt_succ_self _)
      (lt_succ_self _) h hlast

end Files

/-- An assignment without conditions goes on in the next line only if its value says so. -/
theorem not_continued_of_value {line : Text} (value : Text) {chunk after : Text} {endsInBackslash : Text → Bool}
    (hvalue : skipWhitespaceAndComments (nameEnd (skipWhitespaceAndComments line)) = ascii '=' :: value)
    (hchunk : parseNonListAssignmentRHS value = .ok (some chunk, after)) (hlast : endsInBackslash chunk = false) :
    ¬Continued endsInBackslash line := by
  rintro ⟨value', chunk', after', ⟨-, hconditions⟩, hchunk', hlast'⟩
  rw [hvalue] at hconditions
  cases hconditions
  rw [hchunk] at hchunk'
  cases hchunk'
  rw [hlast] at hlast'
  cases hlast'

/-- An assignment with a name and an equals sign is local. -/
theorem lineLocal_of_value {line : Text} (value : Text)
    (hhash : currChar (skipWhitespaceAndComments line) ≠ ascii '#')
    (hvalue : skipWhitespaceAndComments (nameEnd (skipWhitespaceAndComments line)) = ascii '=' :: value) :
    LineLocal line tail := by
  refine ⟨fun h => absurd h hhash, ?_⟩
  rintro ⟨-, hconditions⟩
  rw [hvalue] at hconditions
  cases hconditions

/-- Two assignments, in one file and each alone. -/
theorem parse_lines_two_assignments :
    ∃ calls s, parse (fun _ => true) (fun chunk => chunk.getLast? = some (ascii '\\')) List.dropLast (text "f") 0
        (text "A=1\nB=2") = .ok (calls, s) ∧ s.rest = [] ∧
      linesAlone (fun _ => true) (fun chunk => chunk.getLast? = some (ascii '\\')) List.dropLast (text "f") 0 0
        (lines (text "A=1\nB=2")) = .ok calls := by
  obtain ⟨-, calls, s, hparse, hrest, hlocal⟩ := parse_lines (fun _ => true)
    (fun chunk => chunk.getLast? = some (ascii '\\')) List.dropLast (text "f") 0 (text "A=1\nB=2")
  have htexts : (lines (text "A=1\nB=2")).map Line.text = [text "A=1", text "B=2"] := rfl
  refine ⟨calls, s, hparse, hrest, (hlocal ?_).mpr ?_⟩
  · intro line hline
    have hmem : line.text ∈ [text "A=1", text "B=2"] := htexts ▸ mem_map_of_mem hline
    rcases mem_pair.mp hmem with h | h
    · rw [h]
      exact not_continued_of_value (text "1") rfl rfl rfl
    · rw [h]
      exact not_continued_of_value (text "2") rfl rfl rfl
  · intro line hline t _
    have hmem : line.text ∈ [text "A=1", text "B=2"] := htexts ▸ mem_map_of_mem hline
    rcases mem_pair.mp hmem with h | h
    · rw [h]
      exact lineLocal_of_value (text "1") (by decide) rfl
    · rw [h]
      exact lineLocal_of_value (text "2") (by decide) rfl

/-- A directive before a line separator takes the next line in. -/
theorem keyword_takes_next_line :
    (∀ line ∈ lines (text "#foo" ++ Terminator.lineSeparator.bytes ++ text "A=1"),
        ¬Continued (fun chunk => chunk.getLast? = some (ascii '\\')) line.text) ∧
      parse (fun _ => true) (fun chunk => chunk.getLast? = some (ascii '\\')) List.dropLast (text "f") 0
        (text "#foo" ++ Terminator.lineSeparator.bytes ++ text "A=1")
      = .ok ([unexpected (.unsupportedPreprocessorDirective
          (text "foo" ++ Terminator.lineSeparator.bytes ++ text "A=1")) 1], ⟨[], 1, 0⟩) ∧
      linesAlone (fun _ => true) (fun chunk => chunk.getLast? = some (ascii '\\')) List.dropLast (text "f") 0 0
        (lines (text "#foo" ++ Terminator.lineSeparator.bytes ++ text "A=1"))
      = .ok [unexpected (.unsupportedPreprocessorDirective (text "foo")) 1,
          .foundMacroValueAssignment (text "A") [] (text "1") (text "f") 2 2 3 4] := by
  refine ⟨?_, rfl, rfl⟩
  intro line hline
  have htexts : (lines (text "#foo" ++ Terminator.lineSeparator.bytes ++ text "A=1")).map Line.text
      = [text "#foo", text "A=1"] := rfl
  have hmem : line.text ∈ [text "#foo", text "A=1"] := htexts ▸ mem_map_of_mem hline
  rcases mem_pair.mp hmem with h | h
  · rw [h]
    rintro ⟨value, chunk, after, ⟨hname, -⟩, -⟩
    cases hname
  · rw [h]
    exact not_continued_of_value (text "1") rfl rfl rfl

end Builra.Macro.ConfigFile
