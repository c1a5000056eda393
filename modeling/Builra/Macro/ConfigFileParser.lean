import Mathlib.Data.List.DropRight
import Builra.Lib.Scan
import Builra.Macro.Parser

namespace Builra.Macro.ConfigFile

/-!
# `Macro.ConfigFileParser` — the parser of configuration files

`MacroConfigFileParser` reads a text line by line and tells its delegate what it finds. The cursor is the text
that is left, and `currIdx <= bytes.count` is what a suffix is. The delegate answers a request for an inclusion
with a parser for the included file or with nothing; all the parser does with that answer is to run it, so a
delegate is the sequence of its answers. Strings are the bytes they are decoded from; two operations on decoded
strings that look at a value with a trailing backslash are parameters.
-/

/-! ## The cursor -/

variable (rest : Text)

def currChar : UInt8 := rest.headD 0

def nextChar : UInt8 := rest.tail.headD 0

def nextNextChar : UInt8 := rest.tail.tail.headD 0

def isASCIISpace (c : UInt8) : Bool := c = 32 ∨ c = 9 ∨ c = 11 ∨ c = 12

/-- At a Unicode line separator or paragraph separator. -/
def isAtUnicodeSeparator : Bool :=
  currChar rest = 0xE2 ∧ nextChar rest = 0x80 ∧ (nextNextChar rest = 0xA8 ∨ nextNextChar rest = 0xA9)

def isAtEndOfLine : Bool :=
  rest = [] ∨ currChar rest = 10 ∨ currChar rest = 13 ∨ isAtUnicodeSeparator rest

def isAtStartOfComment : Bool := currChar rest = ascii '/' ∧ nextChar rest = ascii '/'

def isValidMacroNameNthChar (ch : UInt8) : Bool := isAlpha ch || isDigit ch || ch = ascii '_'

def scanUntil (block : Text → Bool) (rest : Text) : Text := Scan.scan block rest

def skipRestOfLine : Text := scanUntil isAtEndOfLine rest

/-- The loop of `skipWhitespaceAndComments`. -/
def skipLoop : Nat → Text → Text
  | 0, rest => rest
  | fuel + 1, rest =>
    if rest = [] then rest
    else if isASCIISpace (currChar rest) then skipLoop fuel rest.tail
    else if isAtStartOfComment rest then skipLoop fuel (skipRestOfLine rest)
    else rest

def skipWhitespaceAndComments : Text := skipLoop (rest.length + 1) rest

/-- The bytes of the line terminator at the cursor. -/
def advancement : Nat :=
  if currChar rest = 10 then 1
  else if currChar rest = 13 then if nextChar rest = 10 then 2 else 1
  else if isAtUnicodeSeparator rest then 3
  else 0

/-! ## What the delegate sees -/

inductive DiagnosticKind where
  | unexpectedCharacter
  | missingEqualsInAssignment
deriving DecidableEq, Repr

/-- The texts of the diagnostics. -/
inductive Message where
  | unterminatedFileName
  | unexpectedCharacter (ch : UInt8)
  | expectedPreprocessorDirective (found : UInt8)
  | unexpectedEndOfLineAfterHash
  | unexpectedCharacterAtEndOfLine (ch : UInt8)
  | unsupportedPreprocessorDirective (directive : Text)
  | expectedMacroName (found : UInt8)
  | unterminatedMacroConditionOnLine (lineNumber : Nat)
  | expectedEqualsInMacroCondition
  | unterminatedMacroCondition
  | expectedEquals (found : UInt8)
deriving DecidableEq, Repr

structure MacroConfigFileDiagnostic where
  kind : DiagnosticKind
  level : DiagnosticLevel
  message : Message
  lineNumber : Nat
deriving DecidableEq, Repr

/-- The calls that a parse makes. -/
inductive DelegateCall where
  | handleDiagnostic (diagnostic : MacroConfigFileDiagnostic)
  | foundPreprocessorInclusion (fileName : Text) (optional : Bool)
  /-- `subparser.parse()`, on the parser that the delegate answered with. -/
  | parseSubparser
  | endPreprocessorInclusion
  | foundMacroValueAssignment (macroName : Text) (conditions : List (Text × Text)) (value path : Text)
      (startLine endLine startColumn endColumn : Nat)
deriving DecidableEq, Repr

def unexpected (message : Message) (lineNumber : Nat) : DelegateCall :=
  .handleDiagnostic ⟨.unexpectedCharacter, .error, message, lineNumber⟩

structure State where
  rest : Text
  currLine : Nat
  /-- How many inclusions the delegate has been asked for. -/
  requests : Nat
deriving DecidableEq, Repr

def State.moveTo (s : State) (rest : Text) : State := { s with rest := rest }

def scanEOL (s : State) : State :=
  if advancement s.rest = 0 then s
  else { s with rest := s.rest.drop (advancement s.rest), currLine := s.currLine + 1 }

/-- A part of a parse: the calls made and the state after it. -/
abbrev Parsed := Except Violation (List DelegateCall × State)

/-! ## Preprocessor directives -/

/-- `parseQuotedString`: the string, if there is one, the calls made and the text left. -/
def parseQuotedString (lineNumber : Nat) (rest : Text) : Option Text × List DelegateCall × Text :=
  if currChar rest = ascii '"' then
    let mark := rest.tail
    let stop := scanUntil (fun rest => isAtEndOfLine rest || currChar rest = ascii '"') mark
    if currChar stop = ascii '"' then (some (slice mark stop), [], stop.tail)
    else (none, [unexpected .unterminatedFileName lineNumber], skipRestOfLine stop)
  else (none, [unexpected (.unexpectedCharacter (currChar rest)) lineNumber], skipRestOfLine rest)

section Parser

variable (answers : Nat → Bool)

/-- The inclusion of a file, with the cursor at the end of the line. -/
def includeFile (fileName : Text) (includeIsOptional : Bool) (s : State) : List DelegateCall × State :=
  let asked := { s with requests := s.requests + 1 }
  if answers s.requests then
    ([.foundPreprocessorInclusion fileName includeIsOptional, .parseSubparser, .endPreprocessorInclusion], asked)
  else ([.foundPreprocessorInclusion fileName includeIsOptional], asked.moveTo (skipRestOfLine asked.rest))

/-- The `include` directives, from after the keyword on. -/
def parseInclude (includeIsOptional : Bool) (s : State) : List DelegateCall × State :=
  match parseQuotedString s.currLine (skipWhitespaceAndComments s.rest) with
  | (some fileName, calls, rest) =>
    let rest := skipWhitespaceAndComments rest
    if isAtEndOfLine rest then
      let (more, s) := includeFile answers fileName includeIsOptional (s.moveTo rest)
      (calls ++ more, s)
    else
      (calls ++ [unexpected (.unexpectedCharacterAtEndOfLine (currChar rest)) s.currLine],
        s.moveTo (skipRestOfLine rest))
  | (none, calls, rest) => (calls, s.moveTo rest)

def parsePreprocessorDirective (s : State) : Parsed :=
  let rest := skipWhitespaceAndComments s.rest
  if isAtEndOfLine rest then .ok ([], s.moveTo rest)
  else if currChar rest ≠ ascii '#' then
    .ok ([unexpected (.expectedPreprocessorDirective (currChar rest)) s.currLine], s.moveTo (skipRestOfLine rest))
  else do
    assert (currChar rest = ascii '#')
    let mark := skipWhitespaceAndComments rest.tail
    if isAtEndOfLine mark then .ok ([unexpected .unexpectedEndOfLineAfterHash s.currLine], s.moveTo mark)
    else
      let stop := scanUntil isAtWhitespace mark
      let directive := slice mark stop
      if directive = text "include?" then .ok (parseInclude answers true (s.moveTo stop))
      else if directive = text "include" then .ok (parseInclude answers false (s.moveTo stop))
      else
        .ok ([unexpected (.unsupportedPreprocessorDirective directive) s.currLine],
          s.moveTo (skipRestOfLine stop))

/-! ## Assignments -/

/-- How the loop over the conditions of an assignment ends. -/
inductive ConditionScan where
  | collected (conditions : List (Text × Text)) (rest : Text)
  | failed (message : Message) (rest : Text)
deriving DecidableEq, Repr

def isAtConditionSeparator (rest : Text) : Bool :=
  isAtEndOfLine rest || currChar rest = ascii '=' || currChar rest = ascii ']'

def isAtConditionEnd (rest : Text) : Bool := isAtEndOfLine rest || currChar rest = ascii ']'

/-- The loop that collects the conditions. -/
def parseConditions (lineNumber : Nat) : Nat → List (Text × Text) → Text → Except Violation ConditionScan
  | 0, _, _ => .error .outOfFuel
  | fuel + 1, conditions, rest =>
    if currChar rest ≠ ascii '[' then .ok (.collected conditions rest)
    else
      let paramMark := rest.tail
      let paramStop := scanUntil isAtConditionSeparator paramMark
      if isAtEndOfLine paramStop then
        .ok (.failed (.unterminatedMacroConditionOnLine lineNumber) (skipRestOfLine paramStop))
      else if currChar paramStop = ascii ']' then
        .ok (.failed .expectedEqualsInMacroCondition (skipRestOfLine paramStop))
      else do
        assert (currChar paramStop = ascii '=')
        let patternMark := paramStop.tail
        let patternStop := scanUntil isAtConditionEnd patternMark
        if isAtEndOfLine patternStop then .ok (.failed .unterminatedMacroCondition (skipRestOfLine patternStop))
        else do
          assert (currChar patternStop = ascii ']')
          parseConditions lineNumber fuel
            (conditions ++ [(slice paramMark paramStop, slice patternMark patternStop)])
            (skipWhitespaceAndComments patternStop.tail)

def trimTrailingSpace (value : Text) : Text := value.rdropWhile isASCIISpace

/-- Drop a trailing semicolon and the whitespace before it. -/
def trimTrailingSemicolon (value : Text) : Text :=
  if value.getLast? = some (ascii ';') then trimTrailingSpace value.dropLast else value

def isAtEndOfValue (rest : Text) : Bool := isAtEndOfLine rest || isAtStartOfComment rest

def parseNonListAssignmentRHS (rest : Text) : Except Violation (Option Text × Text) :=
  let mark := skipWhitespaceAndComments rest
  if isAtEndOfLine mark then .ok (none, mark)
  else do
    let stop := scanUntil isAtEndOfValue mark
    let rest := if isAtStartOfComment stop then skipRestOfLine stop else stop
    let value := trimTrailingSpace (slice mark stop)
    -- `bytes[endIdx-1]` is a byte of the value
    precondition (value ≠ [])
    .ok (some (trimTrailingSemicolon value), rest)

variable (endsInBackslash : Text → Bool) (trimmed : Text → Text) (path : Text)

/-- The loop that collects the chunks of a value: `endsInBackslash` is `hasSuffix` of a backslash, and `trimmed`
drops it and trims the whitespace around what is left. -/
def parseChunks : Nat → State → Except Violation (List Text × State)
  | 0, _ => .error .outOfFuel
  | fuel + 1, s => do
    let (chunk, rest) ← parseNonListAssignmentRHS s.rest
    match chunk with
    | none => .ok ([], s.moveTo rest)
    | some chunk =>
      if endsInBackslash chunk then do
        let (chunks, s) ← parseChunks fuel (scanEOL (s.moveTo rest))
        .ok (if trimmed chunk = [] then chunks else trimmed chunk :: chunks, s)
      else .ok ([chunk], s.moveTo rest)

/-- `currIdx - startOfLine`, where `startOfLine` is one before where the assignment starts. -/
def column (start rest : Text) : Nat := start.length - rest.length + 1

/-- An assignment, from its equals sign on. -/
def parseValue (start name : Text) (conditions : List (Text × Text)) (s : State) : Parsed :=
  if currChar s.rest ≠ ascii '=' then
    .ok ([.handleDiagnostic ⟨.missingEqualsInAssignment, .error, .expectedEquals (currChar s.rest), s.currLine⟩],
      s.moveTo (skipRestOfLine s.rest))
  else do
    assert (currChar s.rest = ascii '=')
    let value := s.rest.tail
    let (chunks, after) ← parseChunks endsInBackslash trimmed (value.length + 1) (s.moveTo value)
    .ok ([.foundMacroValueAssignment name conditions ([ascii ' '].intercalate chunks) path s.currLine after.currLine
        (column start value) (column start after.rest)], after)

def parseMacroValueAssignment (s : State) : Parsed :=
  let mark := skipWhitespaceAndComments s.rest
  if isAtEndOfLine mark then .ok ([], s.moveTo mark)
  else if !isValidMacroName1stChar (currChar mark) then
    .ok ([unexpected (.expectedMacroName (currChar mark)) s.currLine], s.moveTo (skipRestOfLine mark))
  else do
    assert (isValidMacroName1stChar (currChar mark))
    let stop := scanUntil (fun rest => !isValidMacroNameNthChar (currChar rest)) mark.tail
    let rest := skipWhitespaceAndComments stop
    match ← parseConditions s.currLine (rest.length + 1) [] rest with
    | .failed message rest => .ok ([unexpected message s.currLine], s.moveTo rest)
    | .collected conditions rest =>
      parseValue endsInBackslash trimmed path s.rest (slice mark stop) conditions (s.moveTo rest)

/-! ## Files -/

/-- One line of the loop of `parse`. -/
def parseLine (s : State) : Parsed :=
  let rest := skipWhitespaceAndComments s.rest
  if isAtEndOfLine rest then .ok ([], s.moveTo rest)
  else if currChar rest = ascii '#' then parsePreprocessorDirective answers (s.moveTo rest)
  else if isValidMacroName1stChar (currChar rest) then
    parseMacroValueAssignment endsInBackslash trimmed path (s.moveTo rest)
  else if !isAtEndOfLine rest then
    .ok ([unexpected (.unexpectedCharacter (currChar rest)) s.currLine], s.moveTo (skipRestOfLine rest))
  else .ok ([], s.moveTo rest)

/-- The loop of `parse`. -/
def parseLoop : Nat → State → Parsed
  | 0, _ => .error .outOfFuel
  | fuel + 1, s =>
    if s.rest = [] then .ok ([], s)
    else do
      let (calls, s) ← parseLine answers endsInBackslash trimmed path s
      assert (isAtEndOfLine s.rest)
      let (more, s) ← parseLoop fuel (scanEOL s)
      .ok (calls ++ more, s)

/-- `parse`, by a delegate that has been asked for some inclusions before. -/
def parse (requests : Nat) (bytes : Text) : Parsed := do
  let (calls, s) ← parseLoop answers endsInBackslash trimmed path (bytes.length + 1) ⟨bytes, 1, requests⟩
  assert (s.rest = [])
  .ok (calls, s)

end Parser

end Builra.Macro.ConfigFile
