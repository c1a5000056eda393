import Builra.Macro.ConfigFileParser

namespace Builra.Macro.ConfigFile

open List

/-!
# `Macro.ConfigFileLines` — configuration files are parsed line by line

What a parse makes of a line is compared with what a parse of that line alone makes of it. Everything that stops
at an end of line sees no difference between a line terminator and the end of the text (`Unbroken`); what looks
at the character it stopped at, or stops somewhere else, does.
-/

/-! ## Line ends -/

/-- A text with no line terminator in it. -/
def Unbroken (l : Text) : Prop := ∀ s, s <:+ l → s ≠ [] → isAtEndOfLine s = false

theorem Unbroken.suffix {l s : Text} (h : Unbroken l) (hs : s <:+ l) : Unbroken s :=
  fun _ ht hne => h _ (ht.trans hs) hne

theorem Unbroken.tail {l : Text} (h : Unbroken l) : Unbroken l.tail := h.suffix (tail_suffix l)

theorem Unbroken.ne {l : Text} (h : Unbroken l) (hne : l ≠ []) : isAtEndOfLine l = false :=
  h l suffix_rfl hne

theorem unbroken_nil : Unbroken [] := fun _ hs hne => absurd (suffix_nil.mp hs) hne

theorem isAtEndOfLine_nil : isAtEndOfLine [] = true := by decide

section Tail

variable {l tail : Text}

/-- The characters that an end of line can show. -/
theorem currChar_of_isAtEndOfLine (h : isAtEndOfLine tail = true) :
    currChar tail = 0 ∨ currChar tail = 10 ∨ currChar tail = 13 ∨ currChar tail = 0xE2 := by
  simp only [isAtEndOfLine, isAtUnicodeSeparator, decide_eq_true_eq] at h
  rcases h with rfl | h | h | h
  · exact .inl rfl
  · exact .inr (.inl h)
  · exact .inr (.inr (.inl h))
  · exact .inr (.inr (.inr h.1))

theorem currChar_append (hne : l ≠ []) : currChar (l ++ tail) = currChar l := by
  cases l with
  | nil => exact absurd rfl hne
  | cons c cs => rfl

theorem tail_append (hne : l ≠ []) : (l ++ tail).tail = l.tail ++ tail := tail_append_of_ne_nil hne

/-- A character that no end of line shows. -/
def Inner (c : UInt8) : Prop := c ≠ 0 ∧ c ≠ 10 ∧ c ≠ 13 ∧ c ≠ 0xE2

instance (c : UInt8) : Decidable (Inner c) := inferInstanceAs (Decidable (_ ∧ _))

theorem Inner.currChar_ne {c : UInt8} (h : Inner c) (htail : isAtEndOfLine tail = true) : currChar tail ≠ c := by
  intro hc
  obtain ⟨h0, h10, h13, hE2⟩ := h
  rcases currChar_of_isAtEndOfLine htail with h' | h' | h' | h'
  · exact h0 (hc.symm.trans h')
  · exact h10 (hc.symm.trans h')
  · exact h13 (hc.symm.trans h')
  · exact hE2 (hc.symm.trans h')

theorem Inner.currChar_append_iff {c : UInt8} (h : Inner c) (htail : isAtEndOfLine tail = true) :
    currChar (l ++ tail) = c ↔ currChar l = c := by
  by_cases hl : l = []
  · subst hl
    exact iff_of_false (h.currChar_ne htail) (h.currChar_ne isAtEndOfLine_nil)
  · rw [currChar_append hl]

theorem Inner.nextChar_append_iff {c : UInt8} (h : Inner c) (htail : isAtEndOfLine tail = true) (hl : l ≠ []) :
    nextChar (l ++ tail) = c ↔ nextChar l = c := by
  have hcurr : currChar (l.tail ++ tail) = c ↔ currChar l.tail = c := h.currChar_append_iff htail
  rw [← tail_append hl] at hcurr
  exact hcurr

theorem Inner.nextNextChar_append_iff {c : UInt8} (h : Inner c) (htail : isAtEndOfLine tail = true)
    (hl : l.tail ≠ []) : nextNextChar (l ++ tail) = c ↔ nextNextChar l = c := by
  have hne : l ≠ [] := fun h => hl (by rw [h]; rfl)
  have hnext : nextChar (l.tail ++ tail) = c ↔ nextChar l.tail = c := h.nextChar_append_iff htail hl
  rw [← tail_append hne] at hnext
  exact hnext

section

variable (htail : isAtEndOfLine tail = true)
include htail

theorem isAtStartOfComment_append :
    isAtStartOfComment (l ++ tail) = isAtStartOfComment l := by
  have hslash : Inner (ascii '/') := by decide
  by_cases hl : l = []
  · subst hl
    have htail' : currChar tail ≠ ascii '/' := hslash.currChar_ne htail
    have hnil : currChar [] ≠ ascii '/' := hslash.currChar_ne isAtEndOfLine_nil
    simp only [isAtStartOfComment, nil_append, htail', hnil, false_and]
  · simp only [isAtStartOfComment, currChar_append hl, hslash.nextChar_append_iff htail hl]

/-- A separator that begins in a line ends in it. -/
theorem isAtUnicodeSeparator_append (hl : l ≠ []) :
    isAtUnicodeSeparator (l ++ tail) = isAtUnicodeSeparator l := by
  have h80 : Inner 0x80 := by decide
  have hA8 : Inner 0xA8 := by decide
  have hA9 : Inner 0xA9 := by decide
  simp only [isAtUnicodeSeparator, currChar_append hl, h80.nextChar_append_iff htail hl]
  by_cases htl : l.tail = []
  · have hnext : nextChar l ≠ 0x80 := by simp [nextChar, htl]
    simp only [hnext, false_and, and_false]
  · simp only [hA8.nextNextChar_append_iff htail htl, hA9.nextNextChar_append_iff htail htl]

theorem isAtEndOfLine_append (hl : l ≠ []) :
    isAtEndOfLine (l ++ tail) = isAtEndOfLine l := by
  simp only [isAtEndOfLine, isAtUnicodeSeparator_append htail hl, currChar_append hl, append_eq_nil_iff, hl,
    false_and]

end

theorem Unbroken.append (h : Unbroken l) (htail : isAtEndOfLine tail = true) (hl : l ≠ []) :
    isAtEndOfLine (l ++ tail) = false := by
  rw [isAtEndOfLine_append htail hl]
  exact h.ne hl

/-! ## Scans -/

/-- A scan that stops at every end of line sees no difference between a terminator and the end of the text. -/
theorem scanUntil_append {block : Text → Bool} (agree : ∀ s, s ≠ [] → block (s ++ tail) = block s)
    (hstop : tail = [] ∨ block tail = true) :
    scanUntil block (l ++ tail) = scanUntil block l ++ tail :=
  Scan.scan_append (fun s _ hne => agree s hne) fun _ => hstop

theorem skipRestOfLine_append (h : Unbroken l) (htail : isAtEndOfLine tail = true) :
    skipRestOfLine (l ++ tail) = tail := by
  have hl : scanUntil isAtEndOfLine l = [] := Scan.scan_eq_nil h
  rw [skipRestOfLine, scanUntil_append (fun s hne => isAtEndOfLine_append htail hne) (.inr htail), hl,
    nil_append]

/-! ## Whitespace and comments -/

theorem isASCIISpace_of_isAtEndOfLine (h : isAtEndOfLine tail = true) : isASCIISpace (currChar tail) = false := by
  rcases currChar_of_isAtEndOfLine h with h' | h' | h' | h' <;> rw [h'] <;> decide

theorem isAtStartOfComment_of_isAtEndOfLine (h : isAtEndOfLine tail = true) : isAtStartOfComment tail = false := by
  have hslash : currChar tail ≠ ascii '/' := Inner.currChar_ne (by decide) h
  simp only [isAtStartOfComment, hslash, false_and, decide_false]

variable (rest : Text)

theorem skipRestOfLine_isAtEndOfLine : isAtEndOfLine (skipRestOfLine rest) = true := by
  rcases Scan.scan_stops isAtEndOfLine rest with h | h
  · rw [skipRestOfLine, scanUntil, h]
    exact isAtEndOfLine_nil
  · exact h

theorem skipRestOfLine_of_isAtEndOfLine (h : isAtEndOfLine tail = true) : skipRestOfLine tail = tail :=
  Scan.scan_of_stop h

theorem skipLoop_of_isAtEndOfLine (fuel : Nat) (h : isAtEndOfLine tail = true) : skipLoop fuel tail = tail := by
  cases fuel with
  | zero => rfl
  | succ fuel =>
    simp only [skipLoop, isASCIISpace_of_isAtEndOfLine h, isAtStartOfComment_of_isAtEndOfLine h, Bool.false_eq_true,
      if_false, ite_self]

theorem dropWhile_of_not_space (h : isASCIISpace (currChar l) = false) : l.dropWhile isASCIISpace = l := by
  cases l with
  | nil => rfl
  | cons c cs => exact dropWhile_cons_of_neg (by simpa [currChar] using h)

/-- The loop skips whitespace, and what may follow it: a comment ends at the end of the line, where there is
neither whitespace nor a comment. -/
theorem skipLoop_eq (fuel : Nat) (rest : Text) (hfuel : rest.length < fuel) :
    skipLoop fuel rest =
      if isAtStartOfComment (rest.dropWhile isASCIISpace) then skipRestOfLine (rest.dropWhile isASCIISpace)
      else rest.dropWhile isASCIISpace := by
  induction fuel generalizing rest with
  | zero => exact absurd hfuel (Nat.not_lt_zero _)
  | succ fuel ih =>
    cases rest with
    | nil => rfl
    | cons c cs =>
      have hlen : cs.length < fuel := Nat.lt_of_succ_lt_succ hfuel
      rw [skipLoop, if_neg (cons_ne_nil c cs)]
      cases hspace : isASCIISpace (currChar (c :: cs)) with
      | true =>
        rw [if_pos rfl, dropWhile_cons_of_pos (by exact hspace)]
        exact ih cs hlen
      | false =>
        rw [if_neg Bool.false_ne_true, dropWhile_of_not_space hspace,
          skipLoop_of_isAtEndOfLine fuel (skipRestOfLine_isAtEndOfLine (c :: cs))]

theorem skipWhitespaceAndComments_eq :
    skipWhitespaceAndComments rest =
      if isAtStartOfComment (rest.dropWhile isASCIISpace) then skipRestOfLine (rest.dropWhile isASCIISpace)
      else rest.dropWhile isASCIISpace :=
  skipLoop_eq _ rest (Nat.lt_succ_self _)

theorem skipWhitespaceAndComments_suffix : skipWhitespaceAndComments rest <:+ rest := by
  rw [skipWhitespaceAndComments_eq]
  split
  · exact (Scan.scan_suffix _ _).trans (dropWhile_suffix _)
  · exact dropWhile_suffix _

/-- After whitespace and comments there is neither. -/
theorem skipWhitespaceAndComments_stops :
    isASCIISpace (currChar (skipWhitespaceAndComments rest)) = false ∧
      isAtStartOfComment (skipWhitespaceAndComments rest) = false := by
  rw [skipWhitespaceAndComments_eq]
  cases hcomment : isAtStartOfComment (rest.dropWhile isASCIISpace) with
  | true =>
    have h := skipRestOfLine_isAtEndOfLine (rest.dropWhile isASCIISpace)
    exact ⟨isASCIISpace_of_isAtEndOfLine h, isAtStartOfComment_of_isAtEndOfLine h⟩
  | false =>
    refine ⟨?_, hcomment⟩
    have hhead := List.head?_dropWhile_not isASCIISpace rest
    cases hd : rest.dropWhile isASCIISpace with
    | nil => rfl
    | cons c cs =>
      rw [hd] at hhead
      exact hhead

theorem skipWhitespaceAndComments_of_stops (hspace : isASCIISpace (currChar l) = false)
    (hcomment : isAtStartOfComment l = false) : skipWhitespaceAndComments l = l := by
  rw [skipWhitespaceAndComments_eq, dropWhile_of_not_space hspace, if_neg (by simpa using hcomment)]

theorem skipWhitespaceAndComments_idem :
    skipWhitespaceAndComments (skipWhitespaceAndComments rest) = skipWhitespaceAndComments rest :=
  skipWhitespaceAndComments_of_stops (skipWhitespaceAndComments_stops rest).1 (skipWhitespaceAndComments_stops rest).2

theorem dropWhile_space_append (htail : isAtEndOfLine tail = true) :
    (l ++ tail).dropWhile isASCIISpace = l.dropWhile isASCIISpace ++ tail := by
  have ht : tail.dropWhile isASCIISpace = tail := dropWhile_of_not_space (isASCIISpace_of_isAtEndOfLine htail)
  rw [dropWhile_append, ht]
  split
  · rename_i h
    rw [isEmpty_iff.mp h, nil_append]
  · rfl

theorem skipWhitespaceAndComments_append (h : Unbroken l) (htail : isAtEndOfLine tail = true) :
    skipWhitespaceAndComments (l ++ tail) = skipWhitespaceAndComments l ++ tail := by
  have hd : Unbroken (l.dropWhile isASCIISpace) := h.suffix (dropWhile_suffix _)
  have hnil : skipRestOfLine (l.dropWhile isASCIISpace) = [] := by
    have := skipRestOfLine_append hd isAtEndOfLine_nil
    rwa [append_nil] at this
  rw [skipWhitespaceAndComments_eq, skipWhitespaceAndComments_eq, dropWhile_space_append htail,
    isAtStartOfComment_append htail, skipRestOfLine_append hd htail, hnil]
  split <;> rfl

end Tail

/-! ## Every line ends

Whatever the text, what is made of a line ends at an end of line, with no assertion violated. -/

/-- A part of a parse that ends at an end of line. -/
def Ends (s : State) (r : Parsed) : Prop :=
  ∃ calls s', r = .ok (calls, s') ∧ isAtEndOfLine s'.rest = true ∧ s'.rest <:+ s.rest ∧
    (Unbroken s.rest → s'.currLine = s.currLine)

theorem ends_moveTo {s : State} {calls : List DelegateCall} {rest : Text} (hend : isAtEndOfLine rest = true)
    (hsuffix : rest <:+ s.rest) : Ends s (.ok (calls, s.moveTo rest)) :=
  ⟨calls, s.moveTo rest, rfl, hend, hsuffix, fun _ => rfl⟩

theorem ends_skipRestOfLine {s : State} {calls : List DelegateCall} {rest : Text} (hsuffix : rest <:+ s.rest) :
    Ends s (.ok (calls, s.moveTo (skipRestOfLine rest))) :=
  ends_moveTo (skipRestOfLine_isAtEndOfLine rest) ((Scan.scan_suffix _ rest).trans hsuffix)

theorem Ends.of_moveTo {s : State} {rest : Text} {r : Parsed} (h : Ends (s.moveTo rest) r) (hsuffix : rest <:+ s.rest) :
    Ends s r := by
  obtain ⟨calls, s', hr, hend, hs', hline⟩ := h
  exact ⟨calls, s', hr, hend, hs'.trans hsuffix, fun hs => hline (hs.suffix hsuffix)⟩

theorem scanUntil_suffix (block : Text → Bool) (rest : Text) : scanUntil block rest <:+ rest :=
  Scan.scan_suffix block rest

theorem parseQuotedString_suffix (lineNumber : Nat) (rest : Text) :
    (parseQuotedString lineNumber rest).2.2 <:+ rest ∧
      ((parseQuotedString lineNumber rest).1 = none →
        isAtEndOfLine (parseQuotedString lineNumber rest).2.2 = true) := by
  have htail : rest.tail <:+ rest := tail_suffix rest
  unfold parseQuotedString
  split
  · dsimp only
    have hstop := (scanUntil_suffix (fun rest => isAtEndOfLine rest || currChar rest = ascii '"') rest.tail).trans htail
    split
    · exact ⟨(tail_suffix _).trans hstop, fun h => nomatch h⟩
    · exact ⟨(scanUntil_suffix _ _).trans hstop, fun _ => skipRestOfLine_isAtEndOfLine _⟩
  · exact ⟨scanUntil_suffix _ _, fun _ => skipRestOfLine_isAtEndOfLine _⟩

/-- The loop over the conditions, its assertions aside. -/
theorem parseConditions_succ (lineNumber fuel : Nat) (conditions : List (Text × Text)) (rest : Text) :
    parseConditions lineNumber (fuel + 1) conditions rest =
      if currChar rest ≠ ascii '[' then .ok (.collected conditions rest)
      else
        let paramStop := scanUntil isAtConditionSeparator rest.tail
        let patternStop := scanUntil isAtConditionEnd paramStop.tail
        if isAtEndOfLine paramStop then
          .ok (.failed (.unterminatedMacroConditionOnLine lineNumber) (skipRestOfLine paramStop))
        else if currChar paramStop = ascii ']' then
          .ok (.failed .expectedEqualsInMacroCondition (skipRestOfLine paramStop))
        else if isAtEndOfLine patternStop then .ok (.failed .unterminatedMacroCondition (skipRestOfLine patternStop))
        else
          parseConditions lineNumber fuel
            (conditions ++ [(slice rest.tail paramStop, slice paramStop.tail patternStop)])
            (skipWhitespaceAndComments patternStop.tail) := by
  rw [parseConditions]
  split
  · rfl
  · dsimp only
    split
    · rfl
    · rename_i hparamEnd
      split
      · rfl
      · rename_i hbracket
        -- a parameter ends at the end of the line, at a bracket or at the equals sign
        have hequals : currChar (scanUntil isAtConditionSeparator rest.tail) = ascii '=' := by
          rcases Scan.scan_stops isAtConditionSeparator rest.tail with h | h
          · exact absurd (by rw [scanUntil, h]; exact isAtEndOfLine_nil) hparamEnd
          · change isAtConditionSeparator (scanUntil isAtConditionSeparator rest.tail) = true at h
            simp only [isAtConditionSeparator, Bool.or_eq_true, decide_eq_true_eq] at h
            exact (h.resolve_right hbracket).resolve_left hparamEnd
        rw [assert, if_pos hequals]
        show ite _ _ _ = ite _ _ _
        split
        · rfl
        · rename_i hpatternEnd
          have hclosed : currChar (scanUntil isAtConditionEnd
              (scanUntil isAtConditionSeparator rest.tail).tail) = ascii ']' := by
            rcases Scan.scan_stops isAtConditionEnd (scanUntil isAtConditionSeparator rest.tail).tail with h | h
            · exact absurd (by rw [scanUntil, h]; exact isAtEndOfLine_nil) hpatternEnd
            · change isAtConditionEnd (scanUntil isAtConditionEnd _) = true at h
              simp only [isAtConditionEnd, Bool.or_eq_true, decide_eq_true_eq] at h
              exact h.resolve_left hpatternEnd
          rw [assert, if_pos hclosed]
          rfl

def ConditionScan.rest : ConditionScan → Text
  | .collected _ rest => rest
  | .failed _ rest => rest

theorem tail_length_lt {rest : Text} {c : UInt8} (h : currChar rest = c) (hc : Inner c) :
    rest.tail.length < rest.length := by
  cases rest with
  | nil => exact absurd h (hc.currChar_ne isAtEndOfLine_nil)
  | cons c cs => exact Nat.lt_succ_self _

theorem parseConditions_total (lineNumber fuel : Nat) (conditions : List (Text × Text)) (rest : Text)
    (hfuel : rest.length < fuel) :
    ∃ r, parseConditions lineNumber fuel conditions rest = .ok r ∧ r.rest <:+ rest ∧
      ∀ message rest', r = .failed message rest' → isAtEndOfLine rest' = true := by
  induction fuel generalizing conditions rest with
  | zero => exact absurd hfuel (Nat.not_lt_zero _)
  | succ fuel ih =>
    rw [parseConditions_succ]
    have hparam : scanUntil isAtConditionSeparator rest.tail <:+ rest :=
      (scanUntil_suffix _ _).trans (tail_suffix _)
    have hpattern : scanUntil isAtConditionEnd (scanUntil isAtConditionSeparator rest.tail).tail <:+ rest :=
      (scanUntil_suffix _ _).trans ((tail_suffix _).trans hparam)
    have hfailed : ∀ message {t : Text}, t <:+ rest →
        ∃ r, (.ok (.failed message (skipRestOfLine t)) : Except Violation ConditionScan) = .ok r ∧ r.rest <:+ rest ∧
          ∀ message rest', r = .failed message rest' → isAtEndOfLine rest' = true := by
      intro message t ht
      refine ⟨_, rfl, (scanUntil_suffix _ _).trans ht, ?_⟩
      intro message' rest' h
      cases h
      exact skipRestOfLine_isAtEndOfLine t
    dsimp only
    split
    · exact ⟨_, rfl, suffix_rfl, fun _ _ h => nomatch h⟩
    · rename_i hopen
      split
      · exact hfailed _ hparam
      · split
        · exact hfailed _ hparam
        · split
          · exact hfailed _ hpattern
          · have hnext : skipWhitespaceAndComments (scanUntil isAtConditionEnd
                (scanUntil isAtConditionSeparator rest.tail).tail).tail <:+ rest.tail :=
              (skipWhitespaceAndComments_suffix _).trans ((tail_suffix _).trans
                ((scanUntil_suffix _ _).trans ((tail_suffix _).trans (scanUntil_suffix _ _))))
            have hlt : rest.tail.length < rest.length := tail_length_lt (not_not.mp hopen) (by decide)
            have hle := hnext.length_le
            obtain ⟨r, hr, hsuffix, hend⟩ := ih (conditions ++ _) _ (Nat.lt_of_le_of_lt hle (by omega))
            exact ⟨r, hr, hsuffix.trans (hnext.trans (tail_suffix _)), hend⟩

/-- After whitespace and comments, a value takes at least one byte, and that is no space. -/
theorem value_ne_nil {mark : Text} (hend : isAtEndOfLine mark = false) (hspace : isASCIISpace (currChar mark) = false)
    (hcomment : isAtStartOfComment mark = false) :
    (scanUntil isAtEndOfValue mark).length < mark.length ∧
      trimTrailingSpace (slice mark (scanUntil isAtEndOfValue mark)) ≠ [] := by
  cases mark with
  | nil => cases hend
  | cons c cs =>
    have hgo : isAtEndOfValue (c :: cs) = false := by simp only [isAtEndOfValue, hend, hcomment, Bool.or_self]
    have hstop : scanUntil isAtEndOfValue (c :: cs) = scanUntil isAtEndOfValue cs := Scan.scan_cons_of_go hgo
    have hle : (scanUntil isAtEndOfValue cs).length ≤ cs.length := Scan.scan_length_le _ _
    rw [hstop]
    refine ⟨Nat.lt_succ_of_le hle, ?_⟩
    intro hnil
    have hc : c ∈ slice (c :: cs) (scanUntil isAtEndOfValue cs) := by
      have hlen : (c :: cs).length - (scanUntil isAtEndOfValue cs).length
          = cs.length - (scanUntil isAtEndOfValue cs).length + 1 := by
        rw [length_cons]
        omega
      rw [slice, hlen, take_succ_cons]
      exact mem_cons_self
    have hall := rdropWhile_eq_nil_iff.mp hnil c hc
    rw [show isASCIISpace c = false from hspace] at hall
    cases hall

theorem parseNonListAssignmentRHS_eq (rest : Text) :
    parseNonListAssignmentRHS rest =
      let mark := skipWhitespaceAndComments rest
      let stop := scanUntil isAtEndOfValue mark
      .ok (if isAtEndOfLine mark then (none, mark)
        else (some (trimTrailingSemicolon (trimTrailingSpace (slice mark stop))), skipRestOfLine stop)) := by
  obtain ⟨hspace, hcomment⟩ := skipWhitespaceAndComments_stops rest
  unfold parseNonListAssignmentRHS
  dsimp only
  cases hend : isAtEndOfLine (skipWhitespaceAndComments rest) with
  | true => rfl
  | false =>
    have hvalue := (value_ne_nil hend hspace hcomment).2
    -- where a value ends there is a comment or the end of the line
    have hrest : (if isAtStartOfComment (scanUntil isAtEndOfValue (skipWhitespaceAndComments rest)) = true
          then skipRestOfLine (scanUntil isAtEndOfValue (skipWhitespaceAndComments rest))
          else scanUntil isAtEndOfValue (skipWhitespaceAndComments rest))
        = skipRestOfLine (scanUntil isAtEndOfValue (skipWhitespaceAndComments rest)) := by
      split
      · rfl
      · rename_i hno
        refine (skipRestOfLine_of_isAtEndOfLine ?_).symm
        rcases Scan.scan_stops isAtEndOfValue (skipWhitespaceAndComments rest) with h | h
        · rw [scanUntil, h]
          exact isAtEndOfLine_nil
        · simp only [isAtEndOfValue, Bool.or_eq_true] at h
          exact h.resolve_right hno
    rw [hrest, if_neg Bool.false_ne_true, precondition, if_pos hvalue]
    rfl

theorem parseNonListAssignmentRHS_ends (rest : Text) :
    ∃ chunk after, parseNonListAssignmentRHS rest = .ok (chunk, after) ∧ isAtEndOfLine after = true ∧ after <:+ rest ∧
      (chunk ≠ none → after.length < rest.length) := by
  rw [parseNonListAssignmentRHS_eq]
  obtain ⟨hspace, hcomment⟩ := skipWhitespaceAndComments_stops rest
  have hskip := skipWhitespaceAndComments_suffix rest
  dsimp only
  cases hend : isAtEndOfLine (skipWhitespaceAndComments rest) with
  | true => exact ⟨none, _, rfl, hend, hskip, fun h => absurd rfl h⟩
  | false =>
    have hstop := (value_ne_nil hend hspace hcomment).1
    have hafter : skipRestOfLine (scanUntil isAtEndOfValue (skipWhitespaceAndComments rest)) <:+
        scanUntil isAtEndOfValue (skipWhitespaceAndComments rest) := scanUntil_suffix _ _
    refine ⟨_, _, rfl, skipRestOfLine_isAtEndOfLine _, hafter.trans ((scanUntil_suffix _ _).trans hskip), ?_⟩
    intro _
    exact Nat.lt_of_le_of_lt hafter.length_le (Nat.lt_of_lt_of_le hstop hskip.length_le)

theorem scanEOL_suffix (s : State) : (scanEOL s).rest <:+ s.rest := by
  unfold scanEOL
  split
  · exact suffix_rfl
  · exact drop_suffix _ _

/-- At the end of a text there is no line to count. -/
theorem scanEOL_nil {s : State} (h : s.rest = []) : scanEOL s = s := by
  rw [scanEOL, h]
  rfl

theorem Unbroken.eq_nil {l s : Text} (h : Unbroken l) (hs : s <:+ l) (hend : isAtEndOfLine s = true) : s = [] := by
  by_contra hne
  rw [h s hs hne] at hend
  cases hend

section Ends

variable (answers : Nat → Bool) (endsInBackslash : Text → Bool) (trimmed : Text → Text) (path : Text)

theorem includeFile_ends (fileName : Text) (includeIsOptional : Bool) {s : State} (h : isAtEndOfLine s.rest = true) :
    Ends s (.ok (includeFile answers fileName includeIsOptional s)) := by
  unfold includeFile
  split
  · exact ⟨_, _, rfl, h, suffix_rfl, fun _ => rfl⟩
  · exact ⟨_, _, rfl, skipRestOfLine_isAtEndOfLine _, scanUntil_suffix _ _, fun _ => rfl⟩

theorem parseInclude_ends (includeIsOptional : Bool) (s : State) :
    Ends s (.ok (parseInclude answers includeIsOptional s)) := by
  have hskip := skipWhitespaceAndComments_suffix s.rest
  have hquoted := parseQuotedString_suffix s.currLine (skipWhitespaceAndComments s.rest)
  unfold parseInclude
  split
  · rename_i fileName calls rest heq
    rw [heq] at hquoted
    have hrest : skipWhitespaceAndComments rest <:+ s.rest :=
      (skipWhitespaceAndComments_suffix rest).trans (hquoted.1.trans hskip)
    dsimp only
    split
    · obtain ⟨more, s', hr, hspec⟩ := (includeFile_ends answers fileName includeIsOptional
        (s := s.moveTo (skipWhitespaceAndComments rest)) ‹_›).of_moveTo hrest
      rw [Except.ok.injEq] at hr
      rw [hr]
      exact ⟨calls ++ more, s', rfl, hspec⟩
    · exact ends_skipRestOfLine hrest
  · rename_i calls rest heq
    rw [heq] at hquoted
    exact ends_moveTo (hquoted.2 rfl) (hquoted.1.trans hskip)

theorem parsePreprocessorDirective_ends (s : State) : Ends s (parsePreprocessorDirective answers s) := by
  have hskip := skipWhitespaceAndComments_suffix s.rest
  have hmark : skipWhitespaceAndComments (skipWhitespaceAndComments s.rest).tail <:+ s.rest :=
    (skipWhitespaceAndComments_suffix _).trans ((tail_suffix _).trans hskip)
  have hstop : scanUntil isAtWhitespace (skipWhitespaceAndComments (skipWhitespaceAndComments s.rest).tail) <:+ s.rest :=
    (scanUntil_suffix _ _).trans hmark
  unfold parsePreprocessorDirective
  dsimp only
  split
  · exact ends_moveTo ‹_› hskip
  · split
    · exact ends_skipRestOfLine hskip
    · rename_i hhash
      rw [assert, if_pos (not_not.mp hhash)]
      show Ends s (ite _ _ _)
      split
      · exact ends_moveTo ‹_› hmark
      · split
        · exact (parseInclude_ends answers true _).of_moveTo hstop
        · split
          · exact (parseInclude_ends answers false _).of_moveTo hstop
          · exact ends_skipRestOfLine hstop

theorem parseChunks_ends (fuel : Nat) (s : State) (hfuel : s.rest.length < fuel) :
    ∃ chunks s', parseChunks endsInBackslash trimmed fuel s = .ok (chunks, s') ∧ isAtEndOfLine s'.rest = true ∧
      s'.rest <:+ s.rest ∧ (Unbroken s.rest → s'.currLine = s.currLine) := by
  induction fuel generalizing s with
  | zero => exact absurd hfuel (Nat.not_lt_zero _)
  | succ fuel ih =>
    obtain ⟨chunk, after, hchunk, hend, hafter, hshort⟩ := parseNonListAssignmentRHS_ends s.rest
    have hok : ∀ chunks, ∃ chunks' s', (.ok (chunks, s.moveTo after) : Except Violation (List Text × State)) =
        .ok (chunks', s') ∧ isAtEndOfLine s'.rest = true ∧ s'.rest <:+ s.rest ∧
          (Unbroken s.rest → s'.currLine = s.currLine) :=
      fun chunks => ⟨chunks, _, rfl, hend, hafter, fun _ => rfl⟩
    rw [parseChunks, hchunk]
    dsimp only [bind, Except.bind]
    cases chunk with
    | none => exact hok []
    | some chunk =>
      dsimp only
      split
      · have hsuffix := (scanEOL_suffix (s.moveTo after)).trans hafter
        have hlt : after.length < s.rest.length := hshort (Option.some_ne_none chunk)
        have hle := (scanEOL_suffix (s.moveTo after)).length_le
        obtain ⟨chunks, s', hr, hend', hs', hline⟩ := ih (scanEOL (s.moveTo after))
          (Nat.lt_of_le_of_lt hle (Nat.lt_of_lt_of_le hlt (Nat.le_of_lt_succ hfuel)))
        rw [hr]
        refine ⟨_, s', rfl, hend', hs'.trans hsuffix, ?_⟩
        intro h
        rw [hline (h.suffix hsuffix), scanEOL_nil (h.eq_nil hafter hend)]
        rfl
      · exact hok [chunk]

theorem parseValue_ends (start name : Text) (conditions : List (Text × Text)) (s : State) :
    Ends s (parseValue endsInBackslash trimmed path start name conditions s) := by
  unfold parseValue
  split
  · exact ends_skipRestOfLine suffix_rfl
  · rename_i hequals
    obtain ⟨chunks, s', hr, hend, hs', hline⟩ :=
      parseChunks_ends endsInBackslash trimmed (s.rest.tail.length + 1) (s.moveTo s.rest.tail) (Nat.lt_succ_self _)
    rw [assert, if_pos (not_not.mp hequals)]
    dsimp only [bind, Except.bind]
    rw [hr]
    exact ⟨_, s', rfl, hend, hs'.trans (tail_suffix _), fun h => hline h.tail⟩

theorem parseMacroValueAssignment_ends (s : State) :
    Ends s (parseMacroValueAssignment endsInBackslash trimmed path s) := by
  have hskip := skipWhitespaceAndComments_suffix s.rest
  unfold parseMacroValueAssignment
  dsimp only
  split
  · exact ends_moveTo ‹_› hskip
  · split
    · exact ends_skipRestOfLine hskip
    · rename_i hname
      have hstop : scanUntil (fun rest => !isValidMacroNameNthChar (currChar rest))
          (skipWhitespaceAndComments s.rest).tail <:+ s.rest :=
        (scanUntil_suffix _ _).trans ((tail_suffix _).trans hskip)
      obtain ⟨r, hr, hrest, hfailed⟩ := parseConditions_total s.currLine _ []
        (skipWhitespaceAndComments (scanUntil (fun rest => !isValidMacroNameNthChar (currChar rest))
          (skipWhitespaceAndComments s.rest).tail)) (Nat.lt_succ_self _)
      have hrest' : r.rest <:+ s.rest := hrest.trans ((skipWhitespaceAndComments_suffix _).trans hstop)
      rw [assert, if_pos (by simpa using hname)]
      dsimp only [bind, Except.bind]
      rw [hr]
      cases r with
      | failed message rest => exact ends_moveTo (hfailed message rest rfl) hrest'
      | collected conditions rest => exact (parseValue_ends endsInBackslash trimmed path _ _ _ _).of_moveTo hrest'

theorem parseLine_ends (s : State) : Ends s (parseLine answers endsInBackslash trimmed path s) := by
  have hskip := skipWhitespaceAndComments_suffix s.rest
  unfold parseLine
  dsimp only
  split
  · exact ends_moveTo ‹_› hskip
  · split
    · exact (parsePreprocessorDirective_ends answers _).of_moveTo hskip
    · split
      · exact (parseMacroValueAssignment_ends endsInBackslash trimmed path _).of_moveTo hskip
      · split
        · exact ends_skipRestOfLine hskip
        · exact ends_moveTo (by simpa using ‹¬(!isAtEndOfLine _) = true›) hskip

end Ends

end Builra.Macro.ConfigFile
