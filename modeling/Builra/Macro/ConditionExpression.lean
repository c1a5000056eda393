import Builra.Macro.Meaning

namespace Builra.Macro

open List Option Nat

/-!
# `Macro.ConditionExpression` — macro condition expressions

`MacroConditionExpression.fromString` scans a text into tokens and parses them by recursive descent. Every node
of the expression is an object of one of several classes, each with two evaluation methods; a class that does not
override a method inherits it from an abstract base. Operands are optional in the source, and a missing operand
evaluates to the empty string or to false.
-/

/-! ## Scanning -/

/-- The types of the tokens that the scanner makes. End of file is no token here. -/
inductive TokenType where
  | invalid
  | string
  | equals
  | notEquals
  | contains
  | matches
  | «in»
  | not
  | and
  | or
  | questionMark
  | colon
  | leftParen
  | rightParen
deriving DecidableEq, Repr

structure Token where
  type : TokenType
  offset : Nat
  /-- The bytes from the offset on, as many as the length says. -/
  text : Text
deriving DecidableEq, Repr

/-- The loop that scans a quoted string, from after the quote: the text from where it stops on. -/
def scanQuoted (quoteChar : UInt8) : Text → Text
  | [] => []
  | c :: cs =>
    -- the character after a backslash is where the scan stands when it looks for the quote
    if c = ascii '\\' then
      match cs with
      | [] => []
      | d :: ds => if d = quoteChar then d :: ds else scanQuoted quoteChar ds
    else if c = quoteChar then c :: cs
    else scanQuoted quoteChar cs

def keyword (token : Text) : TokenType :=
  if token = text "or" then .or
  else if token = text "and" then .and
  else if token = text "is" then .equals
  else if token = text "isnot" then .notEquals
  else if token = text "matches" then .matches
  else if token = text "in" then .in
  else if token = text "contains" then .contains
  else .string

section Scanner

variable (string : Text)

variable (rest : Text)

/-- A token that starts at the cursor, and the text after it. -/
def tokenAt (type : TokenType) (token after : Text) : Option (Token × Text) :=
  some (⟨type, string.length - rest.length, token⟩, after)

/-- A token of one character, or of two when the second is `second`. A first character without its second is an
invalid token, which for the error message extends to the next whitespace. -/
def pairToken (second : UInt8) (pair : TokenType) (single : Option TokenType) : Option (Token × Text) :=
  match rest with
  | [] => none
  | c :: after =>
    if after.head? = some second then tokenAt string rest pair [c, second] after.tail
    else
      match single with
      | some type => tokenAt string rest type [c] after
      | none => tokenAt string rest .invalid (rest.takeWhile fun c => c > 32) after

/-- `getNextToken`; nothing at the end of the text, and at a zero byte. -/
def getNextToken : Option (Token × Text) :=
  let rest := rest.dropWhile fun c => isAtWhitespace [c]
  match rest with
  | [] => none
  | c :: after =>
    if c = 0 then none
    else if c = ascii '=' then pairToken string rest (ascii '=') .equals none
    else if c = ascii '!' then pairToken string rest (ascii '=') .notEquals (some .not)
    else if c = ascii '&' then pairToken string rest (ascii '&') .and none
    else if c = ascii '|' then pairToken string rest (ascii '|') .or none
    else if c = ascii '?' then tokenAt string rest .questionMark [c] after
    else if c = ascii ':' then tokenAt string rest .colon [c] after
    else if c = ascii '(' then tokenAt string rest .leftParen [c] after
    else if c = ascii ')' then tokenAt string rest .rightParen [c] after
    else if c = ascii '\'' ∨ c = ascii '"' then
      let stop := scanQuoted c after
      some (⟨.string, string.length - after.length, slice after stop⟩, stop.tail)
    else
      let token := rest.takeWhile fun c => !isAtWhitespace [c]
      tokenAt string rest (keyword token) token (rest.drop token.length)

/-- All tokens of a text. Every token takes at least one byte. -/
def tokens : Nat → Text → List Token
  | 0, _ => []
  | fuel + 1, rest =>
    match getNextToken string rest with
    | none => []
    | some (token, rest) => token :: tokens fuel rest

theorem scanQuoted_length (quoteChar : UInt8) (rest : Text) :
    (scanQuoted quoteChar rest).length ≤ rest.length := by
  induction rest using scanQuoted.induct quoteChar with
  | case1 => exact Nat.le_refl _
  | case2 => simp [scanQuoted]
  | case3 => simp [scanQuoted]
  | case4 d ds hne ih =>
    simp only [scanQuoted, if_pos, if_neg hne, length_cons]
    omega
  | case5 cs hbackslash =>
    rw [scanQuoted.eq_def]
    simp only [if_neg hbackslash, if_true]
    exact Nat.le_refl _
  | case6 c cs hbackslash hquote ih =>
    rw [scanQuoted.eq_def]
    simp only [if_neg hbackslash, if_neg hquote, length_cons]
    omega

variable {string}

variable {after rest : Text}

theorem pairToken_shorter {second : UInt8} {pair : TokenType} {single : Option TokenType} {token : Token}
    (h : pairToken string rest second pair single = some (token, after)) :
    after.length < rest.length := by
  unfold pairToken at h
  split at h
  · cases h
  · split at h
    · cases h
      simp only [length_tail, length_cons]
      omega
    · split at h <;> cases h <;> exact lt_succ_self _

theorem tokenAt_shorter {token after' : Text} {type : TokenType} {t : Token}
    (h : tokenAt string rest type token after = some (t, after')) (hafter : after.length < rest.length) :
    after'.length < rest.length := by
  cases h
  exact hafter

variable (string)

/-- What the scanner does where the whitespace ends. -/
inductive Scans : Text → Option (Token × Text) → Prop where
  | eof {rest : Text} : rest = [] ∨ rest.head? = some 0 → Scans rest none
  | pair {c second : UInt8} {cs : Text} {pair : TokenType} {single : Option TokenType} :
      pair ≠ .invalid → single ≠ some .invalid → Scans (c :: cs) (pairToken string (c :: cs) second pair single)
  | single {c : UInt8} {cs : Text} {type : TokenType} :
      type ≠ .invalid → Scans (c :: cs) (tokenAt string (c :: cs) type [c] cs)
  | quoted {c : UInt8} {cs : Text} :
      Scans (c :: cs) (some (⟨.string, string.length - cs.length, slice cs (scanQuoted c cs)⟩, (scanQuoted c cs).tail))
  | word {c : UInt8} {cs token : Text} : isAtWhitespace [c] = false →
      token = (c :: cs).takeWhile (fun c => !isAtWhitespace [c]) →
      Scans (c :: cs) (tokenAt string (c :: cs) (keyword token) token ((c :: cs).drop token.length))

theorem getNextToken_scans (start : Text) :
    Scans string (start.dropWhile fun c => isAtWhitespace [c]) (getNextToken string start) := by
  have hhead := List.head?_dropWhile_not (fun c => isAtWhitespace [c]) start
  unfold getNextToken
  generalize start.dropWhile (fun c => isAtWhitespace [c]) = rest at hhead
  cases rest with
  | nil => exact .eof (.inl rfl)
  | cons c cs =>
    have hc : isAtWhitespace [c] = false := hhead
    dsimp only
    by_cases hzero : c = 0
    · rw [if_pos hzero]
      exact .eof (.inr (congrArg some hzero))
    rw [if_neg hzero]
    by_cases hequals : c = ascii '='
    · rw [if_pos hequals]
      exact .pair (by decide) (by decide)
    rw [if_neg hequals]
    by_cases hnot : c = ascii '!'
    · rw [if_pos hnot]
      exact .pair (by decide) (by decide)
    rw [if_neg hnot]
    by_cases hand : c = ascii '&'
    · rw [if_pos hand]
      exact .pair (by decide) (by decide)
    rw [if_neg hand]
    by_cases hor : c = ascii '|'
    · rw [if_pos hor]
      exact .pair (by decide) (by decide)
    rw [if_neg hor]
    by_cases hquestion : c = ascii '?'
    · rw [if_pos hquestion]
      exact .single (by decide)
    rw [if_neg hquestion]
    by_cases hcolon : c = ascii ':'
    · rw [if_pos hcolon]
      exact .single (by decide)
    rw [if_neg hcolon]
    by_cases hleft : c = ascii '('
    · rw [if_pos hleft]
      exact .single (by decide)
    rw [if_neg hleft]
    by_cases hright : c = ascii ')'
    · rw [if_pos hright]
      exact .single (by decide)
    rw [if_neg hright]
    by_cases hquote : c = ascii '\'' ∨ c = ascii '"'
    · rw [if_pos hquote]
      exact .quoted
    · rw [if_neg hquote]
      exact .word hc rfl

variable {string}

/-- Every token takes at least one byte. -/
theorem getNextToken_shorter {token : Token} (h : getNextToken string rest = some (token, after)) :
    after.length < rest.length := by
  have hdrop : (rest.dropWhile fun c => isAtWhitespace [c]).length ≤ rest.length :=
    (dropWhile_suffix _).length_le
  apply Nat.lt_of_lt_of_le _ hdrop
  have hscans := getNextToken_scans string rest
  rw [h] at hscans
  generalize rest.dropWhile (fun c => isAtWhitespace [c]) = rest at hscans
  generalize hnext : some (token, after) = next at hscans
  cases hscans with
  | eof => cases hnext
  | pair => exact pairToken_shorter hnext.symm
  | single => exact tokenAt_shorter hnext.symm (lt_succ_self _)
  | @quoted c cs =>
    cases hnext
    have := scanQuoted_length c cs
    rw [length_tail, length_cons]
    omega
  | word hc htoken =>
    apply tokenAt_shorter hnext.symm
    rw [htoken, takeWhile_cons_of_pos (by simp [hc]), length_drop]
    simp only [length_cons]
    omega

end Scanner

/-- The tokens of a string. -/
def tokensOf (string : Text) : List Token := tokens string (string.length + 1) string

/-! ## Expressions -/

inductive BinaryOperator where
  | equality
  | inequality
  | contains
  | logicalAND
  | logicalOR
deriving DecidableEq, Repr

/-- An optional `MacroConditionExpression`: the classes that are used, and `nothing`. -/
inductive MacroConditionExpression where
  | nothing
  | stringConstant (macroExpr : MacroExpression)
  | logicalNOT (expr : MacroConditionExpression)
  | binary (op : BinaryOperator) (leftExpr rightExpr : MacroConditionExpression)
  | ternaryConditional (condExpr thenExpr elseExpr : MacroConditionExpression)

/-- What the diagnostics handler is told. -/
inductive ConditionDiagnostic where
  /-- "expected '…' but found '…' at offset …"; nothing is found at the end of the string. -/
  | expected (what : TokenType) (found : Option Token)
  /-- "expected operator or end-of-string, but found '…' at offset …" -/
  | expectedOperator (found : Token)
  /-- "Unable to parse string: …" -/
  | unableToParseString (string : Text)
deriving DecidableEq

/-- What a parse function returns: the expression, the diagnostics on the way, and the tokens left. The first of
them is `parser.nextToken`; at the end of the file there is none. -/
structure ParsedExpression where
  expr : MacroConditionExpression
  diagnostics : List ConditionDiagnostic
  tokens : List Token

/-- The type of `parser.nextToken`. -/
def nextType (tokens : List Token) : Option TokenType := tokens.head?.map Token.type

/-! ## Parsing -/

/-- The token with its backslashes stripped. A backslash at the end stays. -/
def unescaped : Text → Text
  | [] => []
  | [c] => [c]
  | c :: d :: rest => if c = ascii '\\' then d :: unescaped rest else c :: unescaped (d :: rest)

/-- The diagnostics of `parseString`; its fast path has none. -/
def parseStringDiagnostics (string : Text) : List MacroExpressionDiagnostic :=
  if ascii '$' ∈ string then
    match parseAsString string (enoughFuel string) with
    | .ok (calls, _) => calls.flatMap (diagnosed string)
    | .error _ => []
  else []

/-- The errors among the diagnostics of `parseString`, as they are passed on. -/
def constantDiagnostics (string : Text) : List ConditionDiagnostic :=
  ((parseStringDiagnostics string).filter fun diagnostic => diagnostic.level = .error).map
    fun _ => .unableToParseString string

/-- A string constant, unless parsing it as a macro expression has an error. -/
def parseConstant (token : Token) (rest : List Token) : ParsedExpression :=
  let string := unescaped token.text
  match constantDiagnostics string, parseString string with
  | [], .ok parsedString => ⟨.stringConstant parsedString, [], rest⟩
  | diagnostics, _ => ⟨.nothing, diagnostics, rest⟩

section Parsing

variable (parseExpression : List Token → Option ParsedExpression)

variable (tokens : List Token)

/-- `parsePrimaryExpression`: every token other than `(` is a constant. -/
def parsePrimaryExpression : Option ParsedExpression :=
  match tokens with
  | [] => some ⟨.nothing, [], []⟩
  | token :: rest =>
    if token.type = .leftParen then do
      let e ← parseExpression rest
      if nextType e.tokens = some .rightParen then some { e with tokens := e.tokens.tail }
      else some ⟨.nothing, e.diagnostics ++ [.expected .rightParen e.tokens.head?], e.tokens⟩
    else some (parseConstant token rest)

/-- `parseUnaryExpression`, and `parseRelationalExpression`, which calls it. -/
def parseUnaryExpression : Option ParsedExpression :=
  if nextType tokens = some .not then do
    let e ← parsePrimaryExpression parseExpression tokens.tail
    match e.expr with
    | .nothing => some e
    | expr => some { e with expr := .logicalNOT expr }
  else parsePrimaryExpression parseExpression tokens

/-- The loops of the binary operators: while the next token is an operator, parse an operand and go on with both. -/
def operandLoop (operator : TokenType → Option BinaryOperator) (parseOperand : List Token → Option ParsedExpression) :
    Nat → ParsedExpression → Option ParsedExpression
  | 0, _ => none
  | fuel + 1, left =>
    match (nextType left.tokens).bind operator with
    | none => some left
    | some op => do
      let right ← parseOperand left.tokens.tail
      operandLoop operator parseOperand fuel
        ⟨.binary op left.expr right.expr, left.diagnostics ++ right.diagnostics, right.tokens⟩

def parseOperands (operator : TokenType → Option BinaryOperator) (parseOperand : List Token → Option ParsedExpression)
    (tokens : List Token) : Option ParsedExpression := do
  let left ← parseOperand tokens
  operandLoop operator parseOperand (left.tokens.length + 1) left

def equalityOperator : TokenType → Option BinaryOperator
  | .equals => some .equality
  | .notEquals => some .inequality
  | .contains => some .contains
  | _ => none

def andOperator : TokenType → Option BinaryOperator
  | .and => some .logicalAND
  | _ => none

def orOperator : TokenType → Option BinaryOperator
  | .or => some .logicalOR
  | _ => none

def parseEqualityExpression : List Token → Option ParsedExpression :=
  parseOperands equalityOperator (parseUnaryExpression parseExpression)

def parseLogicalANDExpression : List Token → Option ParsedExpression :=
  parseOperands andOperator (parseEqualityExpression parseExpression)

def parseLogicalORExpression : List Token → Option ParsedExpression :=
  parseOperands orOperator (parseLogicalANDExpression parseExpression)

/-- The first alternative, from after the `?`. With nothing before the `:`, the condition stands for it. -/
def parseThenPart (condExpr : MacroConditionExpression) (tokens : List Token) : Option ParsedExpression :=
  if nextType tokens = some .colon then some ⟨condExpr, [], tokens⟩ else parseExpression tokens

def parseTernaryConditionalExpression : Option ParsedExpression := do
  let cond ← parseLogicalORExpression parseExpression tokens
  if nextType cond.tokens = some .questionMark then do
    let thenPart ← parseThenPart parseExpression cond.expr cond.tokens.tail
    if nextType thenPart.tokens = some .colon then do
      let elsePart ← parseExpression thenPart.tokens.tail
      some ⟨.ternaryConditional cond.expr thenPart.expr elsePart.expr,
        cond.diagnostics ++ thenPart.diagnostics ++ elsePart.diagnostics, elsePart.tokens⟩
    else
      some ⟨cond.expr, cond.diagnostics ++ thenPart.diagnostics ++ [.expected .colon thenPart.tokens.head?],
        thenPart.tokens⟩
  else some cond

end Parsing

/-- `parseExpression`. Every nested call has taken a token before it. -/
def parseExpression : Nat → List Token → Option ParsedExpression
  | 0, _ => none
  | fuel + 1, tokens => parseTernaryConditionalExpression (parseExpression fuel) tokens

/-- `fromString`: the expression, or `nothing`, and the diagnostics. -/
def fromString (string : Text) : MacroConditionExpression × List ConditionDiagnostic :=
  if string = [] then (.stringConstant (parseLiteralString string), [])
  else
    match parseExpression ((tokensOf string).length + 1) (tokensOf string) with
    | none => (.nothing, [])
    | some ⟨expr, [], []⟩ => (expr, [])
    | some ⟨_, [], token :: _⟩ => (.nothing, [.expectedOperator token])
    | some ⟨_, diagnostics, _⟩ => (.nothing, diagnostics)

/-! ## Evaluation -/

/-- What ends an evaluation without a result. -/
inductive Trap where
  /-- "This method is a subclass responsibility." -/
  | subclassResponsibility
  | halted (halt : Halt)
deriving DecidableEq

/-- The functions of strings that comparisons use. -/
structure CompareFunctions where
  sameString : Text → Text → Bool
  contains : Text → Text → Bool

/-- `String.boolValue`. -/
def boolValue (string : Text) : Bool :=
  match string with
  | [] => false
  | c :: _ => c = ascii 'y' ∨ c = ascii 'Y' ∨ c = ascii 't' ∨ c = ascii 'T' ∨ (ascii '1' ≤ c ∧ c ≤ ascii '9')

def yesOrNo (b : Bool) : Text := if b then text "YES" else text "NO"

/-- The two evaluation methods of an object. -/
structure Evaluation where
  evaluateAsString : Except Trap Text
  evaluateAsBoolean : Except Trap Bool

/-- `MacroConditionStringExpression` and the ternary expression: the boolean is that of the string. -/
def Evaluation.ofString (string : Except Trap Text) : Evaluation := ⟨string, string.map boolValue⟩

variable (boolean : Except Trap Bool)

/-- `MacroConditionBooleanExpression`: the string is that of the boolean. -/
def Evaluation.ofBoolean : Evaluation := ⟨boolean.map yesOrNo, boolean⟩

/-- `MacroConditionUnaryBooleanExpression` extends the base class, whose `evaluateAsString` is abstract. -/
def Evaluation.ofUnary : Evaluation := ⟨.error .subclassResponsibility, boolean⟩

/-- Both operands are evaluated, the left one first. -/
def evaluateBoth {α : Type} (f : α → α → Bool) (left right : Except Trap α) : Except Trap Bool := do
  let leftValue ← left
  let rightValue ← right
  .ok (f leftValue rightValue)

def BinaryOperator.evaluateAsBoolean (fns : CompareFunctions) (op : BinaryOperator) (left right : Evaluation) :
    Except Trap Bool :=
  match op with
  | .equality => evaluateBoth fns.sameString left.evaluateAsString right.evaluateAsString
  | .inequality => evaluateBoth (fun l r => !fns.sameString l r) left.evaluateAsString right.evaluateAsString
  | .contains => evaluateBoth fns.contains left.evaluateAsString right.evaluateAsString
  | .logicalAND => evaluateBoth (· && ·) left.evaluateAsBoolean right.evaluateAsBoolean
  | .logicalOR => evaluateBoth (· || ·) left.evaluateAsBoolean right.evaluateAsBoolean

/-- The evaluation methods of an expression; `evaluate` is `scope.evaluate` of a macro expression. -/
def MacroConditionExpression.evaluation (fns : CompareFunctions) (evaluate : MacroExpression → Except Trap Text) :
    MacroConditionExpression → Evaluation
  | .nothing => ⟨.ok [], .ok false⟩
  | .stringConstant macroExpr => .ofString (evaluate macroExpr)
  | .logicalNOT expr => .ofUnary do
    let value ← (expr.evaluation fns evaluate).evaluateAsBoolean
    .ok (value == false)
  | .binary op leftExpr rightExpr =>
    .ofBoolean (op.evaluateAsBoolean fns (leftExpr.evaluation fns evaluate) (rightExpr.evaluation fns evaluate))
  | .ternaryConditional condExpr thenExpr elseExpr => .ofString do
    let condBoolValue ← (condExpr.evaluation fns evaluate).evaluateAsBoolean
    if condBoolValue then (thenExpr.evaluation fns evaluate).evaluateAsString
    else (elseExpr.evaluation fns evaluate).evaluateAsString

/-! ## What the parser has read

Where an operand and where an operator is awaited can be told from the tokens alone. A text that ends while an
operand is awaited is not complete; the parser notices that only inside parentheses and before a `:`. -/

/-- What the parser awaits. -/
inductive Awaited where
  | operand
  /-- After `!`. -/
  | primary
  /-- After `?`: an operand, or the `:` right away. -/
  | alternative
  | operator
deriving DecidableEq, Repr

def Awaited.after : Awaited → TokenType → Awaited
  | .operator, .questionMark => .alternative
  | .operator, .colon => .operand
  | .operator, .equals => .operand
  | .operator, .notEquals => .operand
  | .operator, .contains => .operand
  | .operator, .and => .operand
  | .operator, .or => .operand
  | .operator, _ => .operator
  | .alternative, .colon => .operand
  | .primary, .leftParen => .operand
  | .primary, _ => .operator
  | _, .leftParen => .operand
  | _, .not => .primary
  | _, _ => .operator

variable (awaited : Awaited)

def Awaited.run (tokens : List Token) : Awaited :=
  tokens.foldl (fun awaited token => awaited.after token.type) awaited

/-- The string is empty, or does not end where an operand is awaited. -/
def EndsComplete (string : Text) : Prop := string = [] ∨ Awaited.operand.run (tokensOf string) = .operator

instance (string : Text) : Decidable (EndsComplete string) :=
  inferInstanceAs (Decidable (string = [] ∨ Awaited.operand.run (tokensOf string) = .operator))

/-- Every operator of the expression has its operands. -/
def MacroConditionExpression.Complete : MacroConditionExpression → Prop
  | .nothing => False
  | .stringConstant _ => True
  | .logicalNOT expr => expr.Complete
  | .binary _ leftExpr rightExpr => leftExpr.Complete ∧ rightExpr.Complete
  | .ternaryConditional condExpr thenExpr elseExpr => condExpr.Complete ∧ thenExpr.Complete ∧ elseExpr.Complete

@[simp]
theorem Awaited.run_nil : awaited.run [] = awaited := by
  rfl

theorem Awaited.run_cons (token : Token) (tokens : List Token) :
    awaited.run (token :: tokens) = (awaited.after token.type).run tokens := by
  rfl

theorem nextType_eq_some {tokens : List Token} {type : TokenType} :
    nextType tokens = some type ↔ ∃ token rest, tokens = token :: rest ∧ token.type = type := by
  cases tokens <;> simp [nextType]

/-- What a parse function without diagnostics has done: it has read a complete expression, and an operator is awaited
next; or the tokens ended where an operand was awaited. -/
structure Reads (awaited : Awaited) (tokens : List Token) (r : ParsedExpression) : Prop where
  shorter : r.tokens.length ≤ tokens.length
  complete : r.diagnostics = [] →
    (r.expr.Complete ∧ awaited.run tokens = Awaited.operator.run r.tokens)
      ∨ (¬r.expr.Complete ∧ r.tokens = [] ∧ awaited.run tokens ≠ .operator)

/-- A parse function, on token lists that are short enough. -/
def ParsesBelow (parse : List Token → Option ParsedExpression) (n : Nat) : Prop :=
  ∀ tokens : List Token, tokens.length < n → ∃ r, parse tokens = some r ∧ Reads .operand tokens r

theorem parseString_returns (string : Text) : ∃ expr, parseString string = .ok expr := by
  unfold parseString
  split
  · obtain ⟨calls, hparse, -⟩ := parseAsString_spec string (enoughFuel string) (le_refl _)
    split
    · exact ⟨_, rfl⟩
    · rename_i violation hviolation
      rw [hparse] at hviolation
      cases hviolation
  · exact ⟨_, rfl⟩

theorem parseConstant_reads {token : Token} (rest : List Token) (htype : token.type ≠ .leftParen) :
    Reads .primary (token :: rest) (parseConstant token rest) := by
  have hrun : Awaited.primary.run (token :: rest) = Awaited.operator.run rest := by
    rw [Awaited.run_cons]
    cases hcase : token.type <;> simp_all [Awaited.after]
  obtain ⟨parsed, hparsed⟩ := parseString_returns (unescaped token.text)
  simp only [parseConstant, hparsed]
  cases hdiagnostics : constantDiagnostics (unescaped token.text) with
  | nil => exact ⟨le_succ _, fun _ => .inl ⟨trivial, hrun⟩⟩
  | cons diagnostic diagnostics => exact ⟨le_succ _, fun hnone => absurd hnone (cons_ne_nil _ _)⟩

section Specs

variable {parse : List Token → Option ParsedExpression} {tokens : List Token}

theorem parsePrimaryExpression_reads (hparse : ParsesBelow parse tokens.length) :
    ∃ r, parsePrimaryExpression parse tokens = some r ∧ Reads .primary tokens r := by
  cases tokens with
  | nil => exact ⟨_, rfl, Nat.le_refl _, fun _ => .inr ⟨id, rfl, by simp⟩⟩
  | cons token rest =>
    by_cases htype : token.type = .leftParen
    · obtain ⟨e, he, hreads⟩ := hparse rest (lt_succ_self _)
      have hrun : Awaited.primary.run (token :: rest) = Awaited.operand.run rest := by
        rw [Awaited.run_cons, htype]
        rfl
      have hlength := hreads.shorter
      by_cases hclose : nextType e.tokens = some .rightParen
      · refine ⟨{ e with tokens := e.tokens.tail }, ?_, ?_, ?_⟩
        · simp [parsePrimaryExpression, htype, he, hclose]
        · simp only [length_tail, length_cons]
          omega
        · intro hnone
          obtain ⟨hcomplete, hoperand⟩ | ⟨-, hend, -⟩ := hreads.complete hnone
          · refine .inl ⟨hcomplete, ?_⟩
            -- the closing parenthesis leaves an operator awaited
            obtain ⟨close, more, htokens, hcloseType⟩ := nextType_eq_some.mp hclose
            rw [hrun, hoperand, htokens, Awaited.run_cons, hcloseType]
            rfl
          · simp [hend, nextType] at hclose
      · refine ⟨⟨.nothing, e.diagnostics ++ [.expected .rightParen e.tokens.head?], e.tokens⟩, ?_, ?_, ?_⟩
        · simp [parsePrimaryExpression, htype, he, hclose]
        · exact le_succ_of_le hlength
        · intro hnone
          exact absurd hnone (by simp)
    · exact ⟨_, by simp [parsePrimaryExpression, htype], parseConstant_reads rest htype⟩

theorem parseUnaryExpression_reads (hparse : ParsesBelow parse tokens.length) :
    ∃ r, parseUnaryExpression parse tokens = some r ∧ Reads .operand tokens r := by
  by_cases hnot : nextType tokens = some .not
  · obtain ⟨token, rest, rfl, htype⟩ := nextType_eq_some.mp hnot
    have hbelow : ParsesBelow parse rest.length := fun ts hts => hparse ts (lt_succ_of_lt hts)
    obtain ⟨e, he, hreads⟩ := parsePrimaryExpression_reads hbelow
    have hrun : Awaited.operand.run (token :: rest) = Awaited.primary.run rest := by
      rw [Awaited.run_cons, htype]
      rfl
    -- the operator is there exactly when its operand is, and complete exactly when its operand is
    obtain ⟨r, hr, hdiagnostics, htokens, hcomplete⟩ :
        ∃ r, parseUnaryExpression parse (token :: rest) = some r ∧ r.diagnostics = e.diagnostics
          ∧ r.tokens = e.tokens ∧ (r.expr.Complete ↔ e.expr.Complete) := by
      unfold parseUnaryExpression
      rw [if_pos hnot, tail_cons, he]
      obtain ⟨expr, diagnostics, tokens'⟩ := e
      cases expr <;> exact ⟨_, rfl, rfl, rfl, Iff.rfl⟩
    refine ⟨r, hr, ?_, ?_⟩
    · rw [htokens]
      exact le_succ_of_le hreads.shorter
    · rw [hdiagnostics, htokens, hcomplete, hrun]
      exact hreads.complete
  · obtain ⟨r, hr, hreads⟩ := parsePrimaryExpression_reads hparse
    refine ⟨r, by rw [parseUnaryExpression, if_neg hnot, hr], hreads.shorter, fun hnone => ?_⟩
    cases tokens with
    | nil =>
      have hr' : r = ⟨.nothing, [], []⟩ := (some.inj hr).symm
      subst hr'
      exact .inr ⟨id, rfl, by simp⟩
    | cons token rest =>
      have hrun : Awaited.operand.run (token :: rest) = Awaited.primary.run (token :: rest) := by
        have htype : token.type ≠ .not := by simpa [nextType] using hnot
        rw [Awaited.run_cons, Awaited.run_cons]
        cases hcase : token.type <;> simp_all [Awaited.after]
      rw [hrun]
      exact hreads.complete hnone

/-- An operator and its right operand after what has been read. -/
theorem Reads.binary {awaited : Awaited} {left right : ParsedExpression} {token : Token} {rest : List Token}
    (hleft : Reads awaited tokens left) (htokens : left.tokens = token :: rest)
    (htype : Awaited.operator.after token.type = .operand) (hright : Reads .operand rest right) (op : BinaryOperator) :
    Reads awaited tokens
      ⟨.binary op left.expr right.expr, left.diagnostics ++ right.diagnostics, right.tokens⟩ := by
  constructor
  · have hlength := hleft.shorter
    rw [htokens, length_cons] at hlength
    have := hright.shorter
    show right.tokens.length ≤ tokens.length
    omega
  · intro hnone
    obtain ⟨hnoneLeft, hnoneRight⟩ := append_eq_nil_iff.mp hnone
    obtain ⟨hcomplete, hrun⟩ | ⟨-, hend, -⟩ := hleft.complete hnoneLeft
    · rw [hrun, htokens, Awaited.run_cons, htype]
      refine (hright.complete hnoneRight).imp (fun h => ⟨⟨hcomplete, h.1⟩, h.2⟩) fun h => ⟨fun hboth => ?_, h.2⟩
      exact h.1 hboth.2
    · rw [htokens] at hend
      cases hend

/-- After every token of an operator table an operand is awaited. -/
def AwaitsOperand (operator : TokenType → Option BinaryOperator) : Prop :=
  ∀ type op, operator type = some op → Awaited.operator.after type = .operand

variable {operator : TokenType → Option BinaryOperator}

section

variable (hoperator : AwaitsOperand operator)
include hoperator

theorem operandLoop_reads {n : Nat} (hparse : ParsesBelow parse n)
    {awaited : Awaited} (fuel : Nat) (left : ParsedExpression) (hleft : Reads awaited tokens left)
    (hlength : left.tokens.length ≤ n) (hfuel : left.tokens.length < fuel) :
    ∃ r, operandLoop operator parse fuel left = some r ∧ Reads awaited tokens r := by
  induction fuel generalizing left with
  | zero => exact absurd hfuel (not_lt_zero _)
  | succ fuel ih =>
    unfold operandLoop
    cases hop : (nextType left.tokens).bind operator with
    | none => exact ⟨left, rfl, hleft⟩
    | some op =>
      obtain ⟨type, hnext, hop⟩ := bind_eq_some_iff.mp hop
      obtain ⟨token, rest, htokens, rfl⟩ := nextType_eq_some.mp hnext
      rw [htokens, length_cons] at hlength hfuel
      obtain ⟨right, hright, hreads⟩ := hparse rest hlength
      have hshorter := hreads.shorter
      simp only [htokens, tail_cons, hright, bind_eq_bind, bind_some]
      apply ih _ (hleft.binary htokens (hoperator _ _ hop) hreads op)
      · show right.tokens.length ≤ n
        omega
      · show right.tokens.length < fuel
        omega

theorem parseOperands_reads (hparse : ParsesBelow parse (tokens.length + 1)) :
    ∃ r, parseOperands operator parse tokens = some r ∧ Reads .operand tokens r := by
  obtain ⟨left, hleft, hreads⟩ := hparse tokens (lt_succ_self _)
  obtain ⟨r, hr, hreads'⟩ := operandLoop_reads hoperator hparse (left.tokens.length + 1) left hreads
    (le_succ_of_le hreads.shorter) (lt_succ_self _)
  exact ⟨r, by simp [parseOperands, hleft, hr], hreads'⟩

theorem parsesBelow_operands {n : Nat} (hparse : ParsesBelow parse n) :
    ParsesBelow (parseOperands operator parse) n :=
  fun _ htokens => parseOperands_reads hoperator fun ts hts => hparse ts (by omega)

end

theorem equalityOperator_awaitsOperand : AwaitsOperand equalityOperator := by
  intro type op h
  cases type <;> first | rfl | cases h

theorem andOperator_awaitsOperand : AwaitsOperand andOperator := by
  intro type op h
  cases type <;> first | rfl | cases h

theorem orOperator_awaitsOperand : AwaitsOperand orOperator := by
  intro type op h
  cases type <;> first | rfl | cases h

theorem parsesBelow_logicalOR {n : Nat} (hparse : ParsesBelow parse n) :
    ParsesBelow (parseLogicalORExpression parse) (n + 1) := by
  have hunary : ParsesBelow (parseUnaryExpression parse) (n + 1) := fun ts hts =>
    parseUnaryExpression_reads fun ts' hts' => hparse ts' (by omega)
  have hequality := parsesBelow_operands equalityOperator_awaitsOperand hunary
  exact parsesBelow_operands orOperator_awaitsOperand (parsesBelow_operands andOperator_awaitsOperand hequality)

theorem parseThenPart_reads {condExpr : MacroConditionExpression} (hparse : ParsesBelow parse (tokens.length + 1)) :
    ∃ r, parseThenPart parse condExpr tokens = some r ∧ r.tokens.length ≤ tokens.length
      ∧ (condExpr.Complete → r.diagnostics = [] → nextType r.tokens = some .colon →
        r.expr.Complete ∧ Awaited.alternative.run tokens = Awaited.operand.run r.tokens.tail) := by
  by_cases hcolon : nextType tokens = some .colon
  · refine ⟨_, if_pos hcolon, Nat.le_refl _, fun hcomplete _ _ => ⟨hcomplete, ?_⟩⟩
    obtain ⟨colon, rest, rfl, htype⟩ := nextType_eq_some.mp hcolon
    rw [Awaited.run_cons, htype]
    rfl
  · obtain ⟨r, hr, hreads⟩ := hparse tokens (lt_succ_self _)
    refine ⟨r, by rw [parseThenPart, if_neg hcolon, hr], hreads.shorter, fun _ hnone hnext => ?_⟩
    obtain ⟨colon, rest, htokens, htype⟩ := nextType_eq_some.mp hnext
    obtain ⟨hcomplete, hrun⟩ | ⟨-, hend, -⟩ := hreads.complete hnone
    · refine ⟨hcomplete, ?_⟩
      have halternative : Awaited.alternative.run tokens = Awaited.operand.run tokens := by
        cases tokens with
        | nil =>
          have := hreads.shorter
          rw [htokens] at this
          exact absurd this (by simp)
        | cons token rest' =>
          have hne : token.type ≠ .colon := by simpa [nextType] using hcolon
          rw [Awaited.run_cons, Awaited.run_cons]
          cases hcase : token.type <;> simp_all [Awaited.after]
      rw [halternative, hrun, htokens, Awaited.run_cons, htype]
      rfl
    · rw [htokens] at hend
      cases hend

theorem parseTernaryConditionalExpression_reads (hparse : ParsesBelow parse tokens.length) :
    ∃ r, parseTernaryConditionalExpression parse tokens = some r ∧ Reads .operand tokens r := by
  obtain ⟨cond, hcond, hreads⟩ := parsesBelow_logicalOR hparse tokens (lt_succ_self _)
  have hlength := hreads.shorter
  by_cases hmark : nextType cond.tokens = some .questionMark
  swap
  · exact ⟨cond, by simp [parseTernaryConditionalExpression, hcond, hmark], hreads⟩
  obtain ⟨mark, afterMark, htokens, hmarkType⟩ := nextType_eq_some.mp hmark
  rw [htokens, length_cons] at hlength
  -- with tokens left, the condition is complete
  have hcondComplete : cond.diagnostics = [] →
      cond.expr.Complete ∧ Awaited.operand.run tokens = Awaited.alternative.run afterMark := by
    intro hnone
    obtain ⟨hcomplete, hrun⟩ | ⟨-, hend, -⟩ := hreads.complete hnone
    · refine ⟨hcomplete, ?_⟩
      rw [hrun, htokens, Awaited.run_cons, hmarkType]
      rfl
    · rw [htokens] at hend
      cases hend
  have hbelow : ParsesBelow parse (afterMark.length + 1) := fun ts hts => hparse ts (by omega)
  obtain ⟨thenPart, hthen, hthenLength, hthenComplete⟩ := parseThenPart_reads hbelow
  by_cases hcolon : nextType thenPart.tokens = some .colon
  · obtain ⟨colon, rest, hthenTokens, -⟩ := nextType_eq_some.mp hcolon
    rw [hthenTokens, length_cons] at hthenLength
    obtain ⟨elsePart, helse, helseReads⟩ := hparse rest (by omega)
    refine ⟨⟨.ternaryConditional cond.expr thenPart.expr elsePart.expr,
      cond.diagnostics ++ thenPart.diagnostics ++ elsePart.diagnostics, elsePart.tokens⟩, ?_, ?_, ?_⟩
    · rw [parseTernaryConditionalExpression, hcond, bind_eq_bind, bind_some, if_pos hmark, htokens,
        tail_cons, hthen, bind_some, if_pos hcolon, hthenTokens, tail_cons, helse]
      rfl
    · have := helseReads.shorter
      show elsePart.tokens.length ≤ tokens.length
      omega
    · intro hnone
      obtain ⟨hfirst, hnoneElse⟩ := append_eq_nil_iff.mp hnone
      obtain ⟨hnoneCond, hnoneThen⟩ := append_eq_nil_iff.mp hfirst
      obtain ⟨hc, hrun⟩ := hcondComplete hnoneCond
      obtain ⟨ht, hrun'⟩ := hthenComplete hc hnoneThen hcolon
      rw [hrun, hrun', hthenTokens, tail_cons]
      refine (helseReads.complete hnoneElse).imp (fun h => ⟨⟨hc, ht, h.1⟩, h.2⟩) fun h => ⟨fun hall => ?_, h.2⟩
      exact h.1 hall.2.2
  · refine ⟨⟨cond.expr, cond.diagnostics ++ thenPart.diagnostics ++ [.expected .colon thenPart.tokens.head?],
      thenPart.tokens⟩, ?_, ?_, ?_⟩
    · rw [parseTernaryConditionalExpression, hcond, bind_eq_bind, bind_some, if_pos hmark, htokens,
        tail_cons, hthen, bind_some, if_neg hcolon]
    · show thenPart.tokens.length ≤ tokens.length
      omega
    · intro hnone
      exact absurd hnone (by simp)

end Specs

/-- With enough fuel the parser returns, and it has read what the tokens say. -/
theorem parseExpression_reads (fuel : Nat) : ParsesBelow (parseExpression fuel) fuel := by
  induction fuel with
  | zero => exact fun tokens h => absurd h (not_lt_zero _)
  | succ fuel ih =>
    intro tokens htokens
    exact parseTernaryConditionalExpression_reads fun ts hts => ih ts (by omega)

/-- An expression that is returned has all of its operands exactly when the string does not end where an operand is
awaited. -/
theorem fromString_complete {string : Text} {expr : MacroConditionExpression} {diagnostics : List ConditionDiagnostic}
    (h : fromString string = (expr, diagnostics)) (hexpr : expr ≠ .nothing) :
    expr.Complete ↔ EndsComplete string := by
  unfold fromString at h
  by_cases hstring : string = []
  · rw [if_pos hstring] at h
    cases h
    exact ⟨fun _ => .inl hstring, fun _ => trivial⟩
  · rw [if_neg hstring] at h
    obtain ⟨r, hr, hreads⟩ := parseExpression_reads ((tokensOf string).length + 1) (tokensOf string) (lt_succ_self _)
    obtain ⟨e, ds, ts⟩ := r
    rw [hr] at h
    match ds, ts with
    | [], [] =>
      cases h
      unfold EndsComplete
      obtain ⟨hcomplete, hrun⟩ | ⟨hnot, -, hrun⟩ := hreads.complete rfl
      · exact ⟨fun _ => .inr hrun, fun _ => hcomplete⟩
      · exact ⟨fun hc => absurd hc hnot, fun hends => absurd hends (by simp [hstring, hrun])⟩
    | [], token :: _ =>
      cases h
      exact absurd rfl hexpr
    | diagnostic :: ds, ts =>
      cases h
      exact absurd rfl hexpr

/-! ## What is evaluated as a string

`!` has no string. The other classes evaluate to what their operands mean. -/

def BinaryOperator.onStrings : BinaryOperator → Bool
  | .equality | .inequality | .contains => true
  | .logicalAND | .logicalOR => false

def BinaryOperator.meaning (fns : CompareFunctions) (left right : Text × Bool) : BinaryOperator → Bool
  | .equality => fns.sameString left.1 right.1
  | .inequality => !fns.sameString left.1 right.1
  | .contains => fns.contains left.1 right.1
  | .logicalAND => left.2 && right.2
  | .logicalOR => left.2 || right.2

namespace MacroConditionExpression

section Meaning

variable (fns : CompareFunctions) (value : MacroExpression → Text)

/-- The string and the boolean that an expression stands for. -/
def meaning : MacroConditionExpression → Text × Bool
  | .nothing => ([], false)
  | .stringConstant macroExpr => (value macroExpr, boolValue (value macroExpr))
  | .logicalNOT expr => (yesOrNo !expr.meaning.2, !expr.meaning.2)
  | .binary op leftExpr rightExpr =>
    (yesOrNo (op.meaning fns leftExpr.meaning rightExpr.meaning), op.meaning fns leftExpr.meaning rightExpr.meaning)
  | .ternaryConditional condExpr thenExpr elseExpr =>
    let string := if condExpr.meaning.2 then thenExpr.meaning.1 else elseExpr.meaning.1
    (string, boolValue string)

/-- No `!` is reached where a string is needed: as the whole expression, as an operand of a comparison, or as the
alternative that a conditional takes. -/
def Safe : Bool → MacroConditionExpression → Prop
  | _, .nothing => True
  | _, .stringConstant _ => True
  | inString, .logicalNOT expr => inString = false ∧ expr.Safe false
  | _, .binary op leftExpr rightExpr => leftExpr.Safe op.onStrings ∧ rightExpr.Safe op.onStrings
  | _, .ternaryConditional condExpr thenExpr elseExpr =>
    condExpr.Safe false ∧ if (condExpr.meaning fns value).2 then thenExpr.Safe true else elseExpr.Safe true

/-- An evaluation gives the meaning when the expression is safe, and reaches the abstract method otherwise. -/
structure Evaluates (ev : Evaluation) (expr : MacroConditionExpression) : Prop where
  string : expr.Safe fns value true → ev.evaluateAsString = .ok (expr.meaning fns value).1
  boolean : expr.Safe fns value false → ev.evaluateAsBoolean = .ok (expr.meaning fns value).2
  stringTrap : ¬expr.Safe fns value true → ev.evaluateAsString = .error .subclassResponsibility
  booleanTrap : ¬expr.Safe fns value false → ev.evaluateAsBoolean = .error .subclassResponsibility

variable {fns value}

theorem evaluateBoth_spec {α : Type} (f : α → α → Bool) {left right : Except Trap α} {a b : α} {P Q : Prop}
    (hleft : P → left = .ok a) (hleftTrap : ¬P → left = .error .subclassResponsibility) (hright : Q → right = .ok b)
    (hrightTrap : ¬Q → right = .error .subclassResponsibility) :
    (P ∧ Q → evaluateBoth f left right = .ok (f a b))
      ∧ (¬(P ∧ Q) → evaluateBoth f left right = .error .subclassResponsibility) := by
  by_cases hP : P
  · by_cases hQ : Q
    · rw [hleft hP, hright hQ]
      exact ⟨fun _ => rfl, fun hnot => absurd ⟨hP, hQ⟩ hnot⟩
    · rw [hleft hP, hrightTrap hQ]
      exact ⟨fun h => absurd h.2 hQ, fun _ => rfl⟩
  · rw [hleftTrap hP]
    exact ⟨fun h => absurd h.1 hP, fun _ => rfl⟩

theorem binary_evaluates {left right : Evaluation} {leftExpr rightExpr : MacroConditionExpression}
    (hleft : Evaluates fns value left leftExpr) (hright : Evaluates fns value right rightExpr) (op : BinaryOperator) :
    (leftExpr.Safe fns value op.onStrings ∧ rightExpr.Safe fns value op.onStrings →
      op.evaluateAsBoolean fns left right
        = .ok (op.meaning fns (leftExpr.meaning fns value) (rightExpr.meaning fns value)))
    ∧ (¬(leftExpr.Safe fns value op.onStrings ∧ rightExpr.Safe fns value op.onStrings) →
      op.evaluateAsBoolean fns left right = .error .subclassResponsibility) := by
  cases op with
  | equality | inequality | contains =>
    exact evaluateBoth_spec _ hleft.string hleft.stringTrap hright.string hright.stringTrap
  | logicalAND | logicalOR =>
    exact evaluateBoth_spec _ hleft.boolean hleft.booleanTrap hright.boolean hright.booleanTrap

variable {expr : MacroConditionExpression}

/-- A class whose boolean is that of its string. -/
theorem evaluates_ofString {string : Except Trap Text} (hmode : expr.Safe fns value false ↔ expr.Safe fns value true)
    (hboolean : (expr.meaning fns value).2 = boolValue (expr.meaning fns value).1)
    (hstring : expr.Safe fns value true → string = .ok (expr.meaning fns value).1)
    (htrap : ¬expr.Safe fns value true → string = .error .subclassResponsibility) :
    Evaluates fns value (.ofString string) expr where
  string := hstring
  boolean h := by
    rw [hboolean, Evaluation.ofString, hstring (hmode.mp h)]
    rfl
  stringTrap := htrap
  booleanTrap h := by
    rw [Evaluation.ofString, htrap (mt hmode.mpr h)]
    rfl

/-- A class whose string is that of its boolean. -/
theorem evaluates_ofBoolean {boolean : Except Trap Bool}
    (hmode : expr.Safe fns value true ↔ expr.Safe fns value false)
    (hstring : (expr.meaning fns value).1 = yesOrNo (expr.meaning fns value).2)
    (hboolean : expr.Safe fns value false → boolean = .ok (expr.meaning fns value).2)
    (htrap : ¬expr.Safe fns value false → boolean = .error .subclassResponsibility) :
    Evaluates fns value (.ofBoolean boolean) expr where
  string h := by
    rw [hstring, Evaluation.ofBoolean, hboolean (hmode.mp h)]
    rfl
  boolean := hboolean
  stringTrap h := by
    rw [Evaluation.ofBoolean, htrap (mt hmode.mpr h)]
    rfl
  booleanTrap := htrap

theorem evaluation_evaluates {evaluate : MacroExpression → Except Trap Text}
    (hevaluate : ∀ macroExpr, evaluate macroExpr = .ok (value macroExpr)) (expr : MacroConditionExpression) :
    Evaluates fns value (expr.evaluation fns evaluate) expr := by
  induction expr with
  | nothing => exact ⟨fun _ => rfl, fun _ => rfl, fun h => absurd trivial h, fun h => absurd trivial h⟩
  | stringConstant macroExpr =>
    exact evaluates_ofString Iff.rfl rfl (fun _ => hevaluate macroExpr) fun h => absurd trivial h
  | logicalNOT expr ih =>
    -- the string is inherited from the abstract base, whatever the operand is
    refine ⟨fun h => absurd h.1 (by simp), fun h => ?_, fun _ => rfl, fun h => ?_⟩
    · simp only [evaluation, Evaluation.ofUnary, ih.boolean h.2, meaning]
      show Except.ok ((expr.meaning fns value).2 == false) = Except.ok !(expr.meaning fns value).2
      cases (expr.meaning fns value).2 <;> rfl
    · have hexpr : ¬expr.Safe fns value false := fun hsafe => h ⟨rfl, hsafe⟩
      simp only [evaluation, Evaluation.ofUnary, ih.booleanTrap hexpr]
      rfl
  | binary op leftExpr rightExpr ihleft ihright =>
    obtain ⟨hok, htrap⟩ := binary_evaluates ihleft ihright op
    exact evaluates_ofBoolean Iff.rfl rfl hok htrap
  | ternaryConditional condExpr thenExpr elseExpr ihcond ihthen ihelse =>
    apply evaluates_ofString Iff.rfl rfl
    · rintro ⟨hcond, halternative⟩
      simp only [meaning, ihcond.boolean hcond]
      cases hbool : (condExpr.meaning fns value).2 with
      | true =>
        rw [hbool, if_pos rfl] at halternative
        exact ihthen.string halternative
      | false =>
        rw [hbool, if_neg (by simp)] at halternative
        exact ihelse.string halternative
    · intro hnot
      by_cases hcond : condExpr.Safe fns value false
      · have halternative := fun h => hnot ⟨hcond, h⟩
        simp only [ihcond.boolean hcond]
        cases hbool : (condExpr.meaning fns value).2 with
        | true =>
          rw [hbool, if_pos rfl] at halternative
          exact ihthen.stringTrap halternative
        | false =>
          rw [hbool, if_neg (by simp)] at halternative
          exact ihelse.stringTrap halternative
      · simp only [ihcond.booleanTrap hcond]
        rfl

theorem safe_boolean (h : expr.Safe fns value true) : expr.Safe fns value false := by
  cases expr with
  | logicalNOT expr => exact absurd h.1 (by simp)
  | _ => exact h

end Meaning

end MacroConditionExpression

/-! ## Condition expressions evaluate without trapping, and when -/

section Traps

variable (fns : StringFunctions) (mfns : MatchFunctions) (cfns : CompareFunctions) (scope : MacroEvaluationScope)
  (lookup : MacroDeclaration → Option MacroExpression) (fuel : Nat)

variable (macroExpr : MacroExpression)

/-- `scope.evaluate` of a macro expression. A debug build may also stop at the assertion for a value that the scope
looks up (`Halt.assertionFailed`), which is no trap of the condition expression. -/
def scopeEvaluate : Except Trap Text :=
  (evaluateStringExpression fns mfns scope false lookup fuel macroExpr).mapError .halted

/-- The string that a macro expression has in a scope. -/
def scopeString : Text :=
  match evaluateStringExpression fns mfns scope false lookup fuel macroExpr with
  | .ok string => string
  | .error _ => []

variable {fuel}

theorem scopeEvaluate_returns (hfuel : assignmentsLeft scope (.root none [] lookup) < fuel) (macroExpr : MacroExpression) :
    scopeEvaluate fns mfns scope lookup fuel macroExpr = .ok (scopeString fns mfns scope lookup fuel macroExpr) := by
  have hreturns : ∃ string, evaluateStringExpression fns mfns scope false lookup fuel macroExpr = .ok string := by
    unfold evaluateStringExpression
    split
    · exact ⟨_, rfl⟩
    · obtain ⟨b, hb⟩ := executeInContext_returns fns mfns scope false fuel (.root none [] lookup) macroExpr true {}
        hfuel (fun hdebug => absurd hdebug Bool.false_ne_true)
      rw [hb]
      exact ⟨_, rfl⟩
  obtain ⟨string, hstring⟩ := hreturns
  simp only [scopeEvaluate, scopeString, hstring]
  rfl

end Traps

/-- Comparison byte by byte. -/
def plainCompare : CompareFunctions := ⟨fun a b => a == b, fun a b => a.tails.any fun s => b.isPrefixOf s⟩

/-- A comparison of two constants. -/
def comparison : MacroConditionExpression :=
  .binary .equality (.stringConstant (parseLiteralString (text "a"))) (.stringConstant (parseLiteralString (text "b")))

theorem comparison_fromString : fromString (text "a == b") = (comparison, []) := by
  rfl

end Builra.Macro
