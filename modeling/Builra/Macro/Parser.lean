import Builra.Macro.Program

namespace Builra.Macro

/-!
# `Macro.Parser` — the parser of macro expressions and the delegate that emits instructions

`MacroExpressionParser` reports what it finds through callbacks and never looks at what its delegate does, so
a parse is the list of callbacks it makes. The cursor is the text that is left, and an index of the source is
a suffix of the string; a literal between two indexes is `slice` of the two suffixes. Loops and recursion are
bounded by fuel, and every assertion and precondition of the parser is checked where it stands.

`MacroExpressionInstructionEmitterDelegate` turns the callbacks into instructions (`emit`).
-/

/-! ## Characters -/

def isAtWhitespace (rest : Text) : Bool :=
  match rest with
  | [] => false
  | c :: _ => c = ascii ' ' ∨ (ascii '\t' ≤ c ∧ c ≤ ascii '\r')

variable (ch : UInt8)

def getClosingDelimiter : Option UInt8 :=
  if ch = ascii '(' then some (ascii ')')
  else if ch = ascii '\x7b' then some (ascii '\x7d')
  else if ch = ascii '[' then some (ascii ']')
  else none

def isAlpha : Bool :=
  (ascii 'A' ≤ ch ∧ ch ≤ ascii 'Z') ∨ (ascii 'a' ≤ ch ∧ ch ≤ ascii 'z')

def isDigit : Bool := ascii '0' ≤ ch ∧ ch ≤ ascii '9'

def isValidMacroName1stChar : Bool := isAlpha ch || ch = ascii '_'

def isValidMacroNameNthChar : Bool :=
  isAlpha ch || isDigit ch || ch = ascii '.' || ch = ascii '_'

def isValidOperatorNameChar : Bool :=
  isAlpha ch || isDigit ch || ch = ascii '-' || ch = ascii '+' || ch = ascii '.' || ch = ascii '_'

/-! ## Callbacks -/

inductive DiagnosticKind where
  | deprecatedMacroRefSyntax
  | trailingDollarSign
  | trailingEscapeCharacter
  | unterminatedQuotation
  | unterminatedMacroSubexpression
  | missingMacroName
  | missingOperatorName
  | invalidOperatorCharacter
  | unknownRetrievalOperator
  | unknownReplacementOperator
deriving DecidableEq, Repr

inductive DiagnosticLevel where
  | warning
  | error
deriving DecidableEq, Repr

structure MacroExpressionDiagnostic where
  string : Text
  /-- The range, by its two indexes. -/
  lower : Nat
  upper : Nat
  kind : DiagnosticKind
  level : DiagnosticLevel
deriving DecidableEq

/-- The methods of `MacroExpressionParserDelegate`. The position of the cursor is passed where the emitting
delegate reads it. -/
inductive Callback where
  | foundLiteralStringFragment (string : Text)
  | foundStringFormOnlyLiteralStringFragment (string : Text)
  | foundStartOfSubstitutionSubexpression (alwaysEvalAsString : Bool)
  | foundStartOfMacroName
  | foundEndOfMacroName (wasBracketed : Bool)
  | foundRetrievalOperator (operatorName : Text) (position : Nat)
  | foundStartOfReplacementOperator (operatorName : Text)
  | foundEndOfReplacementOperator (operatorName : Text) (position : Nat)
  | foundEndOfSubstitutionSubexpression (alwaysEvalAsString : Bool)
  | foundListElementSeparator (string : Text)
  | handleDiagnostic (diagnostic : MacroExpressionDiagnostic)
deriving DecidableEq

/-- Why a parse has no result. -/
inductive Violation where
  | assertion
  | precondition
  | outOfFuel
deriving DecidableEq, Repr

/-- A part of a parse: the callbacks made and the text that is left. -/
abbrev Parsed := Except Violation (List Callback × Text)

def assert (p : Prop) [Decidable p] : Except Violation Unit :=
  if p then .ok () else .error .assertion

def precondition (p : Prop) [Decidable p] : Except Violation Unit :=
  if p then .ok () else .error .precondition

/-- `utf8[markIdx ..< currIdx]`, the two indexes given by what follows them. -/
def slice (mark rest : Text) : Text := mark.take (mark.length - rest.length)

theorem slice_of_append (l rest : Text) : slice (l ++ rest) rest = l := by
  unfold slice
  rw [List.length_append, Nat.add_sub_cancel, List.take_left]

/-- `scanUntil`: the text scanned, if any, and the text left. -/
def scanUntil (block : UInt8 → Bool) (rest : Text) : Option Text × Text :=
  let scanned := rest.takeWhile (fun c => !block c)
  (if scanned.isEmpty then none else some scanned, rest.dropWhile (fun c => !block c))

/-- The callback for a literal fragment, if one was scanned. -/
def literalFragment : Option Text → List Callback
  | some literal => [.foundLiteralStringFragment literal]
  | none => []

section Parser

variable (string : Text)

/-- The index of the cursor. -/
def index (rest : Text) : Nat := string.length - rest.length

def diagnostic (lower upper : Nat) (kind : DiagnosticKind) (level : DiagnosticLevel) : Callback :=
  .handleDiagnostic ⟨string, lower, upper, kind, level⟩

/-- An error at the cursor. -/
def errorAt (rest : Text) (kind : DiagnosticKind) : Callback :=
  diagnostic string (index string rest) (index string rest) kind .error

/-! ## Substitution subexpressions

The recursive calls of each branch are passed to it; the recursion is tied in the mutual block. -/

/-- `$(...)`, from after the open delimiter `c` on. -/
def parseBracketed (parseName parseOperators : Text → Parsed) (orig : Text) (c closeDelim : UInt8)
    (afterC : Text) : Parsed := do
  let (nameCalls, afterName) ← parseName afterC
  assert (afterName = [] ∨ afterName.head? = some (ascii ':') ∨ afterName.head? = some closeDelim)
  let (operatorCalls, afterOperators) ← parseOperators afterName
  assert (afterOperators = [] ∨ afterOperators.head? = some closeDelim)
  .ok ((if c ≠ ascii '(' then
        [diagnostic string (index string orig) (index string afterC) .deprecatedMacroRefSyntax .warning]
      else [])
      ++ .foundStartOfMacroName :: nameCalls
      ++ (if afterName = [] then
        [diagnostic string (index string orig) (index string afterName) .unterminatedMacroSubexpression .error]
      else if afterName = afterC then [errorAt string afterName .missingMacroName]
      else [])
      ++ .foundEndOfMacroName true :: operatorCalls,
    if afterOperators.head? = some closeDelim then afterOperators.tail else afterOperators)

/-- `$NAME`, from its first character `c` on. -/
def parseBare (parseNested : Text → Parsed) (c : UInt8) (afterC : Text) : Parsed := do
  let afterName := afterC.dropWhile isValidMacroNameNthChar
  assert (afterName.length < (c :: afterC).length)
  -- the malformed form `$NAME$(...)` is parsed as part of the name
  let (inner, rest) ←
    if afterName.head? = some (ascii '$') ∧ afterName.tail.head? = some (ascii '(') then parseNested afterName
    else .ok ([], afterName)
  .ok (.foundStartOfMacroName :: .foundLiteralStringFragment (slice (c :: afterC) afterName) :: inner
    ++ [.foundEndOfMacroName false], rest)

/-- One operator, from after its name on. -/
def parseOperator (parseOperand : Text → Parsed) (closeDelim : UInt8) (possibleOperName : Option Text) :
    Text → Parsed
  | [] => .ok ([errorAt string [] .unterminatedMacroSubexpression], [])
  | c :: afterC =>
    if c = ascii ':' ∨ c = closeDelim then
      match possibleOperName with
      | some operName => .ok ([.foundRetrievalOperator operName (index string (c :: afterC))], c :: afterC)
      | none => .ok ([errorAt string (c :: afterC) .missingOperatorName], c :: afterC)
    else if c = ascii '=' then
      match possibleOperName with
      | some operName => do
        let (operandCalls, rest) ← parseOperand afterC
        assert (rest = [] ∨ rest.head? = some (ascii ':') ∨ rest.head? = some closeDelim)
        .ok (.foundStartOfReplacementOperator operName :: operandCalls
          ++ .foundEndOfReplacementOperator operName (index string rest)
          :: (if rest = [] then [errorAt string rest .unterminatedMacroSubexpression] else []), rest)
      | none =>
        .ok ([errorAt string afterC .missingOperatorName],
          (scanUntil (fun c => c = ascii ':' ∨ c = closeDelim) afterC).2)
    else
      .ok ([diagnostic string (index string (c :: afterC)) (index string afterC) .invalidOperatorCharacter
          .error],
        (scanUntil (fun c => c = ascii ':' ∨ c = closeDelim) (c :: afterC)).2)

mutual

/-- `parseSubstitutionSubexpression`. -/
def parseSubstitutionSubexpression : Nat → Bool → Text → Parsed
  | 0, _, _ => .error .outOfFuel
  | fuel + 1, alwaysEvalAsString, orig => do
    precondition (orig.head? = some (ascii '$'))
    let (calls, rest) ← match orig.tail with
      | [] =>
        .ok ([diagnostic string (index string orig) (index string []) .trailingDollarSign .error,
          .foundLiteralStringFragment (slice orig [])], [])
      | c :: afterC =>
        match getClosingDelimiter c with
        | some closeDelim =>
          parseBracketed string (parseSubstitutionSubexpressionFragment fuel true closeDelim)
            (parseOperators fuel alwaysEvalAsString closeDelim) orig c closeDelim afterC
        | none =>
          if isValidMacroName1stChar c then
            parseBare (parseSubstitutionSubexpression fuel true) c afterC
          else
            .ok ([.foundLiteralStringFragment (slice orig (c :: afterC))],
              if c = ascii '$' then afterC else c :: afterC)
    .ok (.foundStartOfSubstitutionSubexpression alwaysEvalAsString :: calls
      ++ [.foundEndOfSubstitutionSubexpression alwaysEvalAsString], rest)

/-- `parseSubstitutionSubexpressionFragment`, its loop. -/
def parseSubstitutionSubexpressionFragment : Nat → Bool → UInt8 → Text → Parsed
  | 0, _, _, _ => .error .outOfFuel
  | fuel + 1, alwaysEvalAsString, delimiter, start =>
    if start = [] then .ok ([], start)
    else do
      let (literal, rest) := scanUntil (fun c => c = ascii '$' ∨ c = ascii ':' ∨ c = delimiter) start
      assert (rest = [] ∨ rest.head? = some (ascii '$') ∨ rest.head? = some (ascii ':')
        ∨ rest.head? = some delimiter)
      if rest.head? ≠ some (ascii '$') then do
        assert (rest = [] ∨ rest.head? = some (ascii ':') ∨ rest.head? = some delimiter)
        .ok (literalFragment literal, rest)
      else do
        let (calls, rest) ← parseSubstitutionSubexpression fuel alwaysEvalAsString rest
        let (more, rest) ← parseSubstitutionSubexpressionFragment fuel alwaysEvalAsString delimiter rest
        .ok (literalFragment literal ++ calls ++ more, rest)

/-- The operator loop of `parseSubstitutionSubexpression`. -/
def parseOperators : Nat → Bool → UInt8 → Text → Parsed
  | 0, _, _, _ => .error .outOfFuel
  | fuel + 1, alwaysEvalAsString, closeDelim, start =>
    if start.head? ≠ some (ascii ':') then .ok ([], start)
    else do
      let (possibleOperName, rest) := scanUntil (fun c => !isValidOperatorNameChar c) start.tail
      let (calls, rest) ← parseOperator string
        (parseSubstitutionSubexpressionFragment fuel alwaysEvalAsString closeDelim) closeDelim possibleOperName
        rest
      let (more, rest) ← parseOperators fuel alwaysEvalAsString closeDelim rest
      .ok (calls ++ more, rest)

end

/-! ## Strings -/

/-- The loop of `parseAsString`. -/
def parseAsStringLoop : Nat → Text → Parsed
  | 0, _ => .error .outOfFuel
  | fuel + 1, start =>
    if start = [] then .ok ([], start)
    else do
      let (calls, rest) ←
        if start.head? = some (ascii '$') then parseSubstitutionSubexpression string fuel true start
        else
          let (literal, rest) := scanUntil (fun c => c = ascii '$') start
          .ok (literalFragment literal, rest)
      let (more, rest) ← parseAsStringLoop fuel rest
      .ok (calls ++ more, rest)

/-- `parseAsString`. -/
def parseAsString (fuel : Nat) : Parsed :=
  if string = [] then .ok ([.foundLiteralStringFragment []], [])
  else do
    let (calls, rest) ← parseAsStringLoop string fuel string
    assert (rest = [])
    .ok (calls, rest)

/-! ## String lists -/

/-- `parseWhitespace`: the callbacks made and the text left. -/
def parseWhitespace (parseAsListSeparator : Bool) (rest : Text) : List Callback × Text :=
  if isAtWhitespace rest then
    let after := rest.dropWhile (fun c => isAtWhitespace [c])
    if parseAsListSeparator ∧ after ≠ [] then ([.foundListElementSeparator (slice rest after)], after)
    else ([.foundStringFormOnlyLiteralStringFragment (slice rest after)], after)
  else ([], rest)

inductive QuoteState where
  | noQuotes
  | doubleQuotes
  | singleQuotes
deriving DecidableEq, Repr

/-- Emit the literal between the mark and the cursor. -/
def flush (mark rest : Text) : List Callback :=
  if rest.length < mark.length then [.foundLiteralStringFragment (slice mark rest)] else []

/-- The two branches for quotes: `state` is the state inside quotes of this kind. -/
def toggleQuotes (quote : UInt8) (state currentQuotes : QuoteState) (after : Text) :
    List Callback × QuoteState × Text :=
  if currentQuotes = .noQuotes ∧ after.head? = some quote then
    -- a pair of adjacent quotes is an empty fragment
    ([.foundStringFormOnlyLiteralStringFragment [quote], .foundLiteralStringFragment [],
      .foundStringFormOnlyLiteralStringFragment [quote]], currentQuotes, after.tail)
  else
    ([.foundStringFormOnlyLiteralStringFragment [quote]],
      if currentQuotes = .noQuotes then state else .noQuotes, after)

/-- The loop of `parseQuotedExpressionStringElement`: the callbacks, the state of the quotes, the mark and the
text left when it ends. -/
def elementLoop : Nat → QuoteState → Text → Text → Except Violation (List Callback × QuoteState × Text × Text)
  | 0, _, _, _ => .error .outOfFuel
  | fuel + 1, currentQuotes, mark, start =>
    match start with
    | [] => .ok ([], currentQuotes, mark, [])
    | c :: after =>
      if c = ascii '\\' then
        let calls := flush mark start ++ [.foundStringFormOnlyLiteralStringFragment [c]]
        match after with
        | [] =>
          .ok (calls ++ [diagnostic string (index string start) (index string []) .trailingEscapeCharacter
            .error], currentQuotes, start, [])
        | _ :: afterEscaped => do
          let (more, final) ← elementLoop fuel currentQuotes after afterEscaped
          .ok (calls ++ more, final)
      else if c = ascii '$' then do
        let (calls, rest) ← parseSubstitutionSubexpression string fuel (currentQuotes ≠ .noQuotes) start
        let (more, final) ← elementLoop fuel currentQuotes rest rest
        .ok (flush mark start ++ calls ++ more, final)
      else if c = ascii '"' ∧ currentQuotes ≠ .singleQuotes then do
        assert (currentQuotes = .noQuotes ∨ currentQuotes = .doubleQuotes)
        let (calls, quotes, rest) := toggleQuotes (ascii '"') .doubleQuotes currentQuotes after
        let (more, final) ← elementLoop fuel quotes rest rest
        .ok (flush mark start ++ calls ++ more, final)
      else if c = ascii '\'' ∧ currentQuotes ≠ .doubleQuotes then do
        assert (currentQuotes = .noQuotes ∨ currentQuotes = .singleQuotes)
        let (calls, quotes, rest) := toggleQuotes (ascii '\'') .singleQuotes currentQuotes after
        let (more, final) ← elementLoop fuel quotes rest rest
        .ok (flush mark start ++ calls ++ more, final)
      else if currentQuotes = .noQuotes ∧ isAtWhitespace start then
        .ok ([], currentQuotes, mark, start)
      else elementLoop fuel currentQuotes mark after

/-- `parseQuotedExpressionStringElement`. -/
def parseQuotedExpressionStringElement (fuel : Nat) (start : Text) : Parsed := do
  precondition (start ≠ [] ∧ isAtWhitespace start = false)
  let (calls, currentQuotes, mark, rest) ← elementLoop string fuel .noQuotes start start
  precondition (rest = [] ∨ isAtWhitespace rest = true)
  .ok (calls ++ flush mark rest
    ++ (if currentQuotes ≠ .noQuotes then [errorAt string rest .unterminatedQuotation] else []), rest)

/-- The loop of `parseAsStringList`. -/
def parseAsStringListLoop : Nat → Text → Parsed
  | 0, _ => .error .outOfFuel
  | fuel + 1, start =>
    if start = [] then .ok ([], start)
    else
      let (whitespace, rest) := parseWhitespace true start
      if rest = [] then .ok (whitespace, rest)
      else do
        let (calls, rest) ← parseQuotedExpressionStringElement string fuel rest
        assert (rest = [] ∨ isAtWhitespace rest = true)
        let (more, rest) ← parseAsStringListLoop fuel rest
        .ok (whitespace ++ calls ++ more, rest)

/-- `parseAsStringList`. -/
def parseAsStringList (fuel : Nat) : Parsed :=
  let (whitespace, rest) := parseWhitespace false string
  if rest = [] then .ok (whitespace, rest)
  else do
    let (calls, rest) ← parseQuotedExpressionStringElement string fuel rest
    let (more, rest) ← parseAsStringListLoop string fuel rest
    assert (rest = [])
    .ok (whitespace ++ calls ++ more, rest)

end Parser

/-! ## The emitting delegate -/

/-- The state of `MacroExpressionInstructionEmitterDelegate` that its callbacks read. -/
structure NestingLevels where
  alwaysEvalAsStringNestingLevel : Int := 0
  macroNameNestingLevel : Int := 0
deriving DecidableEq

namespace NestingLevels

/-- The levels after a callback. -/
def after (levels : NestingLevels) : Callback → NestingLevels
  | .foundStartOfSubstitutionSubexpression true =>
    { levels with alwaysEvalAsStringNestingLevel := levels.alwaysEvalAsStringNestingLevel + 1 }
  | .foundEndOfSubstitutionSubexpression true =>
    { levels with alwaysEvalAsStringNestingLevel := levels.alwaysEvalAsStringNestingLevel - 1 }
  | .foundStartOfMacroName => { levels with macroNameNestingLevel := levels.macroNameNestingLevel + 1 }
  | .foundEndOfMacroName _ => { levels with macroNameNestingLevel := levels.macroNameNestingLevel - 1 }
  | _ => levels

end NestingLevels

/-- The instructions a callback emits, at the levels after it. -/
def emitted (levels : NestingLevels) : Callback → List EvalInstr
  | .foundLiteralStringFragment string => [.appendLiteral string]
  | .foundStringFormOnlyLiteralStringFragment string => [.appendStringFormOnlyLiteral string]
  | .foundStartOfSubstitutionSubexpression _ => [.beginSubresult]
  | .foundStartOfMacroName => [.beginSubresult]
  | .foundEndOfMacroName wasBracketed =>
    [.evalNamedMacro (levels.alwaysEvalAsStringNestingLevel > 0 ∨ levels.macroNameNestingLevel > 0)
      (!wasBracketed)]
  | .foundRetrievalOperator operatorName _ =>
    match MacroEvaluationRetrievalOperator.ofName operatorName with
    | some op => [.applyRetrievalOperator op]
    | none => []
  | .foundStartOfReplacementOperator _ => [.beginSubresult]
  | .foundEndOfReplacementOperator operatorName _ =>
    match MacroEvaluationReplacementOperator.ofName operatorName with
    | some op => [.applyReplacementOperator op]
    | none => []
  | .foundEndOfSubstitutionSubexpression _ => [.mergeSubresult]
  | .foundListElementSeparator string => [.setNeedsListSeparator string]
  | .handleDiagnostic _ => []

/-- The diagnostics the handler is given for a callback. -/
def diagnosed (string : Text) : Callback → List MacroExpressionDiagnostic
  | .foundRetrievalOperator operatorName position =>
    match MacroEvaluationRetrievalOperator.ofName operatorName with
    | some _ => []
    | none => [⟨string, position, position, .unknownRetrievalOperator, .error⟩]
  | .foundEndOfReplacementOperator operatorName position =>
    match MacroEvaluationReplacementOperator.ofName operatorName with
    | some _ => []
    | none => [⟨string, position, position, .unknownReplacementOperator, .error⟩]
  | .handleDiagnostic diagnostic => [diagnostic]
  | _ => []

/-- The instructions emitted for a list of callbacks. -/
def emit : NestingLevels → List Callback → List EvalInstr
  | _, [] => []
  | levels, c :: calls => emitted (levels.after c) c ++ emit (levels.after c) calls

/-- Fuel that is enough for every string of a length (`Macro.Balance` proves it). -/
def enoughFuel (string : Text) : Nat := 2 * string.length + 2

end Builra.Macro
