import Builra.Ninja.Lexer

namespace Builra

open List

/-!
# `Ninja.Parser` — declarations, and recovery from errors

The parser looks one token ahead and switches the mode of the lexer before that token is lexed. An error is reported, and
the parser goes on behind the line, or behind the indented lines of the declaration.
-/

namespace Ninja

/-! ## The source -/

/-- `lex`, in a buffer with a null character behind it. -/
def Lexer.nextToken (l : Lexer) : Token × Lexer := (l.token, l.tokenStop.2)

/-- What a step of the lexer does for the parser. -/
structure Next (l : Lexer) (next : Token × Lexer) : Prop where
  mode : next.2.mode = l.mode
  le : next.2.bufferPos.length ≤ l.bufferPos.length
  lt : next.1.tokenKind ≠ .endOfFile → next.2.bufferPos.length < l.bufferPos.length

theorem next_nextToken (l : Lexer) : Next l l.nextToken := by
  have hstart := Lexer.passed_tokenStart l
  have hpassed := hstart.trans (Lexer.passed_tokenStop l)
  refine ⟨hpassed.mode, hpassed.suffix.length_le, fun hkind => ?_⟩
  rcases Lexer.tokenStop_cases l with hadvanced | ⟨-, hend⟩
  · exact Nat.lt_of_lt_of_le hadvanced.shorter hstart.suffix.length_le
  · exact absurd (congrArg Prod.fst hend) hkind

def getNextNonCommentToken (l : Lexer) : Token × Lexer :=
  if _h : l.nextToken.1.tokenKind = .comment then getNextNonCommentToken l.nextToken.2 else l.nextToken
termination_by l.bufferPos.length
decreasing_by exact (next_nextToken l).lt (by rw [_h]; decide)

theorem next_getNextNonCommentToken (l : Lexer) : Next l (getNextNonCommentToken l) := by
  fun_induction getNextNonCommentToken l with
  | case1 l h ih =>
    have hfirst := next_nextToken l
    exact ⟨ih.mode.trans hfirst.mode, ih.le.trans hfirst.le, fun hkind => Nat.lt_of_lt_of_le (ih.lt hkind) hfirst.le⟩
  | case2 l h => exact next_nextToken l

inductive DeclKind where
  | build
  | pool
  | rule
deriving DecidableEq

/-- The arguments of a begin action. -/
inductive Decl where
  | build (name : Token) (outputs inputs : List Token) (numExplicitInputs numImplicitInputs : Nat)
  | pool (name : Token)
  | rule (name : Token)

def Decl.kind : Decl → DeclKind
  | .build .. => .build
  | .pool _ => .pool
  | .rule _ => .rule

/-- The calls of `ParseActions`; `R` is what the begin actions return. -/
inductive Event (R : Type) where
  | error (message : String) (tok : Token)
  | beginManifest (name : String)
  | endManifest
  | binding (name value : Token)
  | default (names : List Token)
  | include (isInclude : Bool) (path : Token)
  | beginDecl (decl : Decl) (result : R)
  | declBinding (kind : DeclKind) (result : R) (name value : Token)
  | endDecl (kind : DeclKind) (result : R) (startTok : Token)

structure Parser (R : Type) where
  lexer : Lexer
  tok : Token
  /-- What a begin action returns, after the calls before it. -/
  actions : List (Event R) → Decl → R
  events : List (Event R)
  /-- The tokens that have been the current one. -/
  consumed : List Token

namespace Parser

variable {R : Type}

def setMode (p : Parser R) (value : LexingMode) : Parser R := { p with lexer := p.lexer.setMode value }

def emit (p : Parser R) (e : Event R) : Parser R := { p with events := p.events ++ [e] }

def error (p : Parser R) (message : String) : Parser R := p.emit (.error message p.tok)

def advance (p : Parser R) (next : Token × Lexer) : Parser R :=
  { p with lexer := next.2, tok := next.1, consumed := p.consumed ++ [p.tok] }

/-- `consumeToken`, and `consumeExpectedToken` where the token is the expected one. -/
def consumeToken (p : Parser R) : Parser R := p.advance (getNextNonCommentToken p.lexer)

/-- What is left to do. -/
def size (p : Parser R) : Nat := 2 * p.lexer.bufferPos.length + if p.tok.tokenKind = .endOfFile then 0 else 1

theorem size_advance {p : Parser R} {next : Token × Lexer} (h : Next p.lexer next) :
    (p.advance next).size ≤ p.size ∧
      (p.tok.tokenKind ≠ .endOfFile ∨ next.1.tokenKind ≠ .endOfFile → (p.advance next).size < p.size) := by
  have hle := h.le
  have hlt := h.lt
  unfold size
  show 2 * next.2.bufferPos.length + (if next.1.tokenKind = .endOfFile then 0 else 1) ≤ _ ∧ (_ →
    2 * next.2.bufferPos.length + (if next.1.tokenKind = .endOfFile then 0 else 1) < _)
  split_ifs with hnext htok
  · exact ⟨by omega, fun hne => absurd hne (not_or_intro (not_not_intro htok) (not_not_intro hnext))⟩
  · exact ⟨by omega, fun _ => by omega⟩
  · have := hlt hnext
    exact ⟨by omega, fun _ => by omega⟩
  · have := hlt hnext
    exact ⟨by omega, fun _ => by omega⟩

theorem size_consumeToken (p : Parser R) (h : p.tok.tokenKind ≠ .endOfFile ∨ p.consumeToken.tok.tokenKind ≠ .endOfFile) :
    p.consumeToken.size < p.size :=
  (size_advance (next_getNextNonCommentToken p.lexer)).2 h

/-- The loop of `skipPastEOL`. -/
def skipToEOL (p : Parser R) : Parser R :=
  if _h : p.tok.tokenKind = .newline ∨ p.tok.tokenKind = .endOfFile then p else skipToEOL (p.advance p.lexer.nextToken)
termination_by p.size
decreasing_by exact (size_advance (next_nextToken p.lexer)).2 (.inl (not_or.mp _h).2)

def skipPastEOL (p : Parser R) : Parser R := p.skipToEOL.consumeToken

theorem size_skipPastEOL (p : Parser R) (h : p.skipPastEOL.tok.tokenKind ≠ .endOfFile) : p.skipPastEOL.size < p.size := by
  have hlast := p.skipToEOL.size_consumeToken (.inr h)
  refine Nat.lt_of_lt_of_le hlast ?_
  clear hlast h
  fun_induction skipToEOL p with
  | case1 p h => exact Nat.le_refl _
  | case2 p h ih => exact ih.trans (size_advance (next_nextToken p.lexer)).1

/-- Consume all the strings. -/
def takeStrings (p : Parser R) : List Token × Parser R :=
  if _h : p.tok.tokenKind = .string then
    let (names, q) := takeStrings p.consumeToken
    (p.tok :: names, q)
  else ([], p)
termination_by p.size
decreasing_by exact p.size_consumeToken (.inl (by rw [_h]; decide))

def parseBindingInternal (p : Parser R) : Option (Token × Token) × Parser R :=
  if p.tok.tokenKind ≠ .identifier then (none, ((p.error "expected variable name").setMode .none).skipPastEOL)
  else
    let name := p.tok
    let p := p.consumeToken
    if p.tok.tokenKind ≠ .equals then (none, ((p.error "expected '=' token").setMode .none).skipPastEOL)
    else
      let p := (p.setMode .variableString).consumeToken.setMode .none
      let value := p.tok
      if p.tok.tokenKind = .newline then (some (name, { value with tokenKind := .string, length := 0 }), p.consumeToken)
      else if p.tok.tokenKind ≠ .string then (none, (p.error "expected variable value").skipPastEOL)
      else
        let p := p.consumeToken
        if p.tok.tokenKind ≠ .newline then (none, (p.error "expected newline token").skipPastEOL)
        else (some (name, value), p.consumeToken)

def parseBindingDecl (p : Parser R) : Parser R :=
  match p.parseBindingInternal with
  | (some (name, value), p) => p.emit (.binding name value)
  | (none, p) => p

def parseDefaultDecl (p : Parser R) : Parser R :=
  let (names, p) := (p.setMode .pathString).consumeToken.takeStrings
  let p := p.setMode .none
  if names = [] then (p.error "expected target path string").skipPastEOL
  else if p.tok.tokenKind ≠ .newline then (p.error "expected newline token").skipPastEOL
  else p.consumeToken.emit (.default names)

def parseIncludeDecl (p : Parser R) : Parser R :=
  let isInclude := decide (p.tok.tokenKind = .kwInclude)
  let p := (p.setMode .pathString).consumeToken.setMode .none
  let path := p.tok
  if p.tok.tokenKind ≠ .string then (p.error "expected path string").skipPastEOL
  else
    let p := p.consumeToken
    if p.tok.tokenKind ≠ .newline then (p.error "expected newline token").skipPastEOL
    else p.consumeToken.emit (.include isInclude path)

/-- The end of a specifier. -/
def beginDecl (p : Parser R) (decl : Decl) : Option R × Parser R :=
  if p.tok.tokenKind ≠ .newline then (none, p.error "expected newline token")
  else
    let p := p.consumeToken
    let result := p.actions p.events decl
    (some result, p.emit (.beginDecl decl result))

/-- The inputs behind a separator. -/
def takeInputs (p : Parser R) (separator : TokenKind) : List Token × Parser R :=
  if p.tok.tokenKind = separator then p.consumeToken.takeStrings else ([], p)

def parseBuildSpecifier (p : Parser R) : Option R × Parser R :=
  let p := (p.setMode .pathString).consumeToken
  if p.tok.tokenKind ≠ .string then (none, (p.error "expected output path string").setMode .none)
  else
    let (outputs, p) := p.takeStrings
    if p.tok.tokenKind ≠ .colon then (none, (p.error "expected ':' token").setMode .none)
    else
      let p := (p.setMode .identifierSpecific).consumeToken.setMode .pathString
      let name := p.tok
      if p.tok.tokenKind ≠ .identifier then (none, (p.error "expected rule name identifier").setMode .none)
      else
        let (explicit, p) := p.consumeToken.takeStrings
        let (implicit, p) := p.takeInputs .pipe
        let (orderOnly, p) := p.takeInputs .pipePipe
        let numExplicitInputs := explicit.length % 2 ^ 32
        let numImplicitInputs := ((explicit ++ implicit).length - numExplicitInputs) % 2 ^ 32
        (p.setMode .none).beginDecl
          (.build name outputs (explicit ++ implicit ++ orderOnly) numExplicitInputs numImplicitInputs)

/-- The specifier of a pool or a rule. -/
def parseNameSpecifier (message : String) (decl : Token → Decl) (p : Parser R) : Option R × Parser R :=
  let p := (p.setMode .identifierSpecific).consumeToken.setMode .none
  if p.tok.tokenKind ≠ .identifier then (none, p.error message) else p.consumeToken.beginDecl (decl p.tok)

def parsePoolSpecifier : Parser R → Option R × Parser R := parseNameSpecifier "expected pool name identifier" .pool

def parseRuleSpecifier : Parser R → Option R × Parser R := parseNameSpecifier "expected rule name identifier" .rule

/-- One indented line of a declaration. -/
def parseIndentedLine (p : Parser R) (kind : DeclKind) (result : R) : Parser R :=
  let p := (p.setMode .identifierSpecific).consumeToken
  if p.tok.tokenKind = .newline then (p.setMode .none).consumeToken
  else
    match p.parseBindingInternal with
    | (some (name, value), p) => p.emit (.declBinding kind result name value)
    | (none, p) => p

/-! ## What is consumed -/

variable (ts : List Token)

/-- Tokens without a newline. -/
def Inline : Prop := ∀ t ∈ ts, t.tokenKind ≠ .newline

/-- A line, with the newline or the end of the file. -/
def Line : Prop :=
  ∃ front last, ts = front ++ [last] ∧ Inline front ∧ (last.tokenKind = .newline ∨ last.tokenKind = .endOfFile)

/-- Lines that are indented. -/
def Indented : Prop :=
  ∃ lines : List (List Token), ts = lines.flatten ∧ ∀ l ∈ lines, Line l ∧ ∀ t ∈ l.head?, t.tokenKind = .indentation

/-- A line, and the indented lines below it. -/
def Block : Prop := ∃ first rest, ts = first ++ rest ∧ Line first ∧ Indented rest

/-- The parser went on over tokens `ts` with calls `es`. -/
structure Went (L : List Token → Prop) (E : List (Event R) → Prop) (p q : Parser R) : Prop where
  tokens : ∃ ts, q.consumed = p.consumed ++ ts ∧ L ts ∧ (ts ++ [q.tok]).head? = some p.tok ∧
    q.size + ts.countP (fun t => t.tokenKind ≠ .endOfFile) ≤ p.size
  events : ∃ es, q.events = p.events ++ es ∧ E es

def All (Q : Event R → Prop) (es : List (Event R)) : Prop := ∀ e ∈ es, Q e

variable {p q r : Parser R} {L L' L'' : List Token → Prop} {E E' E'' : List (Event R) → Prop} {Q Q' : Event R → Prop}

theorem Went.trans (h : Went L E p q) (h' : Went L' E' q r) (hL : ∀ {a b}, L a → L' b → L'' (a ++ b))
    (hE : ∀ {a b}, E a → E' b → E'' (a ++ b)) : Went L'' E'' p r := by
  obtain ⟨⟨ts, hconsumed, hts, hhead, hsize⟩, es, hevents, hes⟩ := h
  obtain ⟨⟨ts', hconsumed', hts', hhead', hsize'⟩, es', hevents', hes'⟩ := h'
  refine ⟨⟨ts ++ ts', ?_, hL hts hts', ?_, ?_⟩, es ++ es', ?_, hE hes hes'⟩
  · rw [hconsumed', hconsumed, append_assoc]
  · cases ts with
    | nil => exact hhead'.trans hhead
    | cons t ts => exact hhead
  · rw [countP_append]
    omega
  · rw [hevents', hevents, append_assoc]

theorem All.append {es es' : List (Event R)} (h : All Q es) (h' : All Q es') : All Q (es ++ es') := fun e he =>
  (mem_append.mp he).elim (h e) (h' e)

theorem Inline.append {ts ts' : List Token} (h : Inline ts) (h' : Inline ts') : Inline (ts ++ ts') := fun t ht =>
  (mem_append.mp ht).elim (h t) (h' t)

theorem Went.inline (h : Went Inline (All Q) p q) (h' : Went Inline (All Q) q r) : Went Inline (All Q) p r :=
  h.trans h' Inline.append All.append

theorem Went.line (h : Went Inline (All Q) p q) (h' : Went Line (All Q) q r) : Went Line (All Q) p r := by
  refine h.trans h' (fun {a b} ha hb => ?_) All.append
  obtain ⟨front, last, rfl, hfront, hlast⟩ := hb
  exact ⟨a ++ front, last, (append_assoc _ _ _).symm, ha.append hfront, hlast⟩

theorem Went.mono (h : Went L E p q) (hL : ∀ {a}, L a → L' a) (hE : ∀ {a}, E a → E' a) : Went L' E' p q := by
  obtain ⟨⟨ts, hconsumed, hts, hrest⟩, es, hevents, hes⟩ := h
  exact ⟨⟨ts, hconsumed, hL hts, hrest⟩, es, hevents, hE hes⟩

theorem inline_nil : Inline [] := fun _ ht => absurd ht not_mem_nil

theorem indented_nil : Indented [] := ⟨[], rfl, fun _ hl => absurd hl not_mem_nil⟩

theorem Went.refl (p : Parser R) (hL : L []) : Went L (All Q) p p :=
  ⟨⟨[], (append_nil _).symm, hL, rfl, Nat.le_refl _⟩, [], (append_nil _).symm, fun _ he => absurd he not_mem_nil⟩

theorem Went.start (p : Parser R) : Went Inline (All Q) p p := Went.refl p inline_nil

theorem Went.emit (h : Went L (All Q) p q) {e : Event R} (he : Q e) : Went L (All Q) p (q.emit e) := by
  obtain ⟨htokens, es, hevents, hes⟩ := h
  refine ⟨htokens, es ++ [e], ?_, hes.append fun e' he' => mem_singleton.mp he' ▸ he⟩
  show q.events ++ [e] = _
  rw [hevents, append_assoc]

theorem Went.setMode (h : Went L E p q) (value : LexingMode) : Went L E p (q.setMode value) := ⟨h.tokens, h.events⟩

theorem went_advance {next : Token × Lexer} (h : Next p.lexer next) (hL : L [p.tok]) : Went L (All Q) p (p.advance next) := by
  refine ⟨⟨[p.tok], rfl, hL, rfl, ?_⟩, [], (append_nil _).symm, fun _ he => absurd he not_mem_nil⟩
  obtain ⟨hle, hlt⟩ := size_advance h
  rw [countP_singleton]
  split_ifs with hkind
  · exact hlt (.inl (of_decide_eq_true hkind))
  · exact hle

theorem Went.consume (h : Went Inline (All Q) p q) {kind : TokenKind} (hkind : q.tok.tokenKind = kind)
    (hne : kind ≠ .newline := by decide) : Went Inline (All Q) p q.consumeToken :=
  h.inline (went_advance (next_getNextNonCommentToken q.lexer) fun _ ht => mem_singleton.mp ht ▸ hkind ▸ hne)

/-- The next token is lexed in a mode of its own. -/
theorem Went.lexIn (h : Went Inline (All Q) p q) (value : LexingMode) {kind : TokenKind} (hkind : q.tok.tokenKind = kind)
    (hne : kind ≠ .newline := by decide) : Went Inline (All Q) p (q.setMode value).consumeToken :=
  (h.setMode value).consume hkind hne

theorem mode_consumeToken (p : Parser R) : p.consumeToken.lexer.mode = p.lexer.mode :=
  (next_getNextNonCommentToken p.lexer).mode

/-- The parser is behind the tokens, and the lexer in no special mode. -/
structure Done (L : List Token → Prop) (E : List (Event R) → Prop) (p q : Parser R) : Prop extends Went L E p q where
  mode : q.lexer.mode = .none

/-- A newline, or the end, is consumed. -/
theorem Went.finish (h : Went Inline (All Q) p q) (hmode : q.lexer.mode = .none)
    (hkind : q.tok.tokenKind = .newline ∨ q.tok.tokenKind = .endOfFile) : Done Line (All Q) p q.consumeToken where
  toWent := h.line (went_advance (next_getNextNonCommentToken q.lexer)
    ⟨[], q.tok, rfl, inline_nil, hkind⟩)
  mode := (mode_consumeToken q).trans hmode

theorem skipToEOL_spec (p : Parser R) : Went Inline (All Q) p p.skipToEOL ∧ p.skipToEOL.lexer.mode = p.lexer.mode ∧
    (p.skipToEOL.tok.tokenKind = .newline ∨ p.skipToEOL.tok.tokenKind = .endOfFile) := by
  fun_induction skipToEOL p with
  | case1 p h => exact ⟨Went.start p, rfl, h⟩
  | case2 p h ih =>
    obtain ⟨hwent, hmode, hend⟩ := ih
    have hnext := next_nextToken p.lexer
    refine ⟨(went_advance hnext ?_).inline hwent, hmode.trans hnext.mode, hend⟩
    exact fun _ ht => mem_singleton.mp ht ▸ (not_or.mp h).1

theorem Went.skip (h : Went Inline (All Q) p q) (hmode : q.lexer.mode = .none) : Done Line (All Q) p q.skipPastEOL := by
  obtain ⟨hwent, hmode', hend⟩ := skipToEOL_spec (Q := Q) q
  exact (h.inline hwent).finish (hmode'.trans hmode) hend

theorem Went.strings (h : Went Inline (All Q) p q) : Went Inline (All Q) p q.takeStrings.2 := by
  fun_induction takeStrings q with
  | case1 q hkind names r hrest ih =>
    rw [hrest] at ih
    exact ih (h.consume hkind)
  | case2 q hkind => exact h

/-! ## One line -/

/-- An error is a diagnostic, not an action. -/
def IsError (e : Event R) : Prop := ∃ message tok, e = .error message tok

variable (kind : DeclKind)

/-- What may stand between the begin and the end action of a declaration. -/
def Own (result : R) (e : Event R) : Prop :=
  IsError e ∨ ∃ name value, e = .declBinding kind result name value

/-- Everything but the actions of declarations with an end. -/
def Plain (e : Event R) : Prop :=
  match e with
  | .beginDecl .. | .declBinding .. | .endDecl .. => False
  | _ => True

theorem All.mono {es : List (Event R)} (h : All Q es) (hQ : ∀ e, Q e → Q' e) : All Q' es := fun e he => hQ e (h e he)

theorem plain_of_isError {e : Event R} (h : IsError e) : Plain e := by
  obtain ⟨message, tok, rfl⟩ := h
  trivial

theorem Went.error (h : Went L (All IsError) p q) (message : String) : Went L (All IsError) p (q.error message) :=
  h.emit ⟨message, q.tok, rfl⟩

theorem parseBindingInternal_done (p : Parser R) : Done Line (All IsError) p p.parseBindingInternal.2 := by
  have hstart := Went.start (Q := IsError) p
  unfold parseBindingInternal
  by_cases hname : p.tok.tokenKind = .identifier
  · rw [if_neg (not_not_intro hname)]
    have hequals := hstart.consume hname
    simp only
    by_cases hkind : p.consumeToken.tok.tokenKind = .equals
    · rw [if_neg (not_not_intro hkind)]
      have hvalue := (hequals.lexIn .variableString hkind).setMode .none
      split_ifs with hnewline hstring hend
      · exact hvalue.finish rfl (.inl hnewline)
      · exact (hvalue.error _).skip rfl
      · exact ((hvalue.consume (not_not.mp hstring)).error _).skip (mode_consumeToken _)
      · exact (hvalue.consume (not_not.mp hstring)).finish (mode_consumeToken _) (.inl (not_not.mp hend))
    · rw [if_pos hkind]
      exact ((hequals.error _).setMode .none).skip rfl
  · rw [if_pos hname]
    exact ((hstart.error _).setMode .none).skip rfl

theorem Done.emit (h : Done L (All Q) p q) {e : Event R} (he : Q e) : Done L (All Q) p (q.emit e) :=
  ⟨h.toWent.emit he, h.mode⟩

theorem Done.mono (h : Done L (All Q) p q) (hQ : ∀ e, Q e → Q' e) : Done L (All Q') p q :=
  ⟨h.toWent.mono id fun hes => hes.mono hQ, h.mode⟩

theorem parseBindingDecl_done (p : Parser R) : Done Line (All Plain) p p.parseBindingDecl := by
  have hline := (parseBindingInternal_done p).mono fun e => plain_of_isError
  unfold parseBindingDecl
  split
  · rename_i hbinding
    rw [hbinding] at hline
    exact hline.emit trivial
  · rename_i hbinding
    rw [hbinding] at hline
    exact hline

theorem parseIndentedLine_done (result : R) (h : p.tok.tokenKind = .indentation) :
    Done Line (All (Own kind result)) p (p.parseIndentedLine kind result) := by
  have hstart : ∀ {Q : Event R → Prop}, Went Inline (All Q) p (p.setMode .identifierSpecific).consumeToken := fun {Q} =>
    (Went.start p).lexIn .identifierSpecific h
  unfold parseIndentedLine
  simp only
  split_ifs with hnewline
  · exact (hstart.setMode .none).finish rfl (.inl hnewline)
  · have hbinding := parseBindingInternal_done (p.setMode .identifierSpecific).consumeToken
    have hline := Done.mono (⟨hstart.line hbinding.toWent, hbinding.mode⟩ : Done Line (All IsError) p _)
      fun e => Or.inl (b := ∃ name value, e = .declBinding kind result name value)
    split
    · rename_i name value q hq
      rw [hq] at hline
      exact hline.emit (.inr ⟨name, value, rfl⟩)
    · rename_i q hq
      rw [hq] at hline
      exact hline

theorem parseDefaultDecl_done (h : p.tok.tokenKind = .kwDefault) : Done Line (All Plain) p p.parseDefaultDecl := by
  have hnames : Went Inline (All IsError) p ((p.setMode .pathString).consumeToken.takeStrings.2.setMode .none) :=
    ((Went.start p).lexIn .pathString h).strings.setMode .none
  unfold parseDefaultDecl
  simp only
  split_ifs with hempty hend
  · exact ((hnames.error _).skip rfl).mono fun e => plain_of_isError
  · exact ((hnames.error _).skip rfl).mono fun e => plain_of_isError
  · exact ((hnames.finish rfl (.inl (not_not.mp hend))).mono fun e => plain_of_isError).emit trivial

theorem parseIncludeDecl_done (h : p.tok.tokenKind = .kwInclude ∨ p.tok.tokenKind = .kwSubninja) :
    Done Line (All Plain) p p.parseIncludeDecl := by
  have hpath : Went Inline (All IsError) p ((p.setMode .pathString).consumeToken.setMode .none) :=
    ((Went.start p).lexIn .pathString rfl (by rcases h with h | h <;> rw [h] <;> decide)).setMode .none
  unfold parseIncludeDecl
  simp only
  split_ifs with hstring hend
  · exact ((hpath.error _).skip rfl).mono fun e => plain_of_isError
  · exact (((hpath.consume (not_not.mp hstring)).error _).skip (mode_consumeToken _)).mono
      fun e => plain_of_isError
  · exact (((hpath.consume (not_not.mp hstring)).finish (mode_consumeToken _)
      (.inl (not_not.mp hend))).mono fun e => plain_of_isError).emit trivial

/-! ## Specifiers -/

/-- A failed specifier stays in its line, and a begin action comes behind the line. -/
def Specified (p : Parser R) : Option R × Parser R → Prop
  | (none, q) => Done Inline (All IsError) p q
  | (some result, q) => ∃ decl q', decl.kind = kind ∧ Done Line (All fun _ => False) p q' ∧ q = q'.emit (.beginDecl decl result)

theorem beginDecl_specified (h : ∀ Q, Went Inline (All Q) p q) (hmode : q.lexer.mode = .none) (decl : Decl) :
    Specified decl.kind p (q.beginDecl decl) := by
  unfold beginDecl
  split_ifs with hend
  · exact ⟨(h IsError).error _, hmode⟩
  · exact ⟨decl, _, rfl, (h _).finish hmode (.inl (not_not.mp hend)), rfl⟩

theorem Went.inputs (h : Went Inline (All Q) p q) (separator : TokenKind) (hne : separator ≠ .newline := by decide) :
    Went Inline (All Q) p (q.takeInputs separator).2 := by
  unfold takeInputs
  split_ifs with hkind
  · exact (h.consume hkind hne).strings
  · exact h

theorem parseBuildSpecifier_specified (h : p.tok.tokenKind = .kwBuild) : Specified .build p p.parseBuildSpecifier := by
  have hstart : ∀ Q, Went Inline (All Q) p (p.setMode .pathString).consumeToken := fun _ =>
    (Went.start p).lexIn .pathString h
  unfold parseBuildSpecifier
  simp only
  split_ifs with houtput hcolon hname
  · exact ⟨((hstart IsError).error _).setMode .none, rfl⟩
  · exact ⟨((hstart IsError).strings.error _).setMode .none, rfl⟩
  all_goals
    have hrule : ∀ Q, Went Inline (All Q) p
        (((p.setMode .pathString).consumeToken.takeStrings.2.setMode .identifierSpecific).consumeToken.setMode .pathString) := fun _ =>
      ((hstart _).strings.lexIn .identifierSpecific (not_not.mp hcolon)).setMode .pathString
  · exact ⟨((hrule IsError).error _).setMode .none, rfl⟩
  · have hinputs := fun Q => ((hrule Q).consume (not_not.mp hname)).strings
    exact beginDecl_specified
      (fun Q => (((hinputs Q).inputs .pipe).inputs .pipePipe).setMode .none) rfl _

theorem parseNameSpecifier_specified {kind : DeclKind} {decl : Token → Decl} {message : String}
    (hdecl : ∀ name, (decl name).kind = kind) (h : p.tok.tokenKind ≠ .newline) :
    Specified kind p (parseNameSpecifier message decl p) := by
  have hname : ∀ Q, Went Inline (All Q) p ((p.setMode .identifierSpecific).consumeToken.setMode .none) := fun _ =>
    ((Went.start p).lexIn .identifierSpecific rfl h).setMode .none
  unfold parseNameSpecifier
  simp only
  split_ifs with hkind
  · exact ⟨(hname IsError).error _, rfl⟩
  · rw [← hdecl]
    exact beginDecl_specified (fun Q => (hname Q).consume (not_not.mp hkind)) (mode_consumeToken _) _

/-! ## Declarations -/

theorem Went.size_lt (h : Went L E p q) (hL : ¬ L []) (hkind : p.tok.tokenKind ≠ .endOfFile) : q.size < p.size := by
  obtain ⟨⟨ts, -, hts, hhead, hsize⟩, -⟩ := h
  have hpos : 0 < ts.countP (fun t => t.tokenKind ≠ .endOfFile) := by
    refine countP_pos_iff.mpr ⟨p.tok, ?_, decide_eq_true hkind⟩
    cases ts with
    | nil => exact absurd hts hL
    | cons t ts => exact (Option.some.inj hhead : t = p.tok) ▸ mem_cons_self
  omega

theorem not_line_nil : ¬ Line [] := fun ⟨front, last, hnil, _⟩ => append_ne_nil_of_right_ne_nil front (cons_ne_nil last []) hnil.symm

/-- The indented lines of a declaration. -/
def parseBindings (p : Parser R) (kind : DeclKind) (result : R) : Parser R :=
  if _h : p.tok.tokenKind = .indentation then (p.parseIndentedLine kind result).parseBindings kind result else p
termination_by p.size
decreasing_by exact (parseIndentedLine_done kind result _h).toWent.size_lt not_line_nil (by rw [_h]; decide)

/-- The lines that are left out behind a failed specifier. -/
def skipLines (p : Parser R) : Parser R :=
  if _h : p.skipPastEOL.tok.tokenKind = .indentation then skipLines p.skipPastEOL else p.skipPastEOL
termination_by p.size
decreasing_by exact p.size_skipPastEOL (by rw [_h]; decide)

/-- What follows a specifier. -/
def parseBody (startTok : Token) (kind : DeclKind) : Option R × Parser R → Parser R
  | (none, p) => p.skipLines
  | (some result, p) => (p.parseBindings kind result).emit (.endDecl kind result startTok)

def parseParameterizedDecl (p : Parser R) : Parser R :=
  match p.tok.tokenKind with
  | .kwBuild => parseBody p.tok .build p.parseBuildSpecifier
  | .kwPool => parseBody p.tok .pool p.parsePoolSpecifier
  | _ => parseBody p.tok .rule p.parseRuleSpecifier

def parseDecl (p : Parser R) : Parser R :=
  match p.tok.tokenKind with
  | .newline => p.consumeToken
  | .kwBuild | .kwRule | .kwPool => p.parseParameterizedDecl
  | .kwDefault => p.parseDefaultDecl
  | .kwInclude | .kwSubninja => p.parseIncludeDecl
  | .identifier => p.parseBindingDecl
  | _ => (p.error "unexpected token").skipPastEOL

/-- Actions with their bindings, and the end action of each. -/
inductive Matched : List (Event R) → Prop
  | nil : Matched []
  | plain {e : Event R} {es : List (Event R)} (he : Plain e) (hes : Matched es) : Matched (e :: es)
  | decl {decl : Decl} {result : R} {own es : List (Event R)} (hown : All (Own decl.kind result) own)
      (startTok : Token) (hes : Matched es) : Matched (.beginDecl decl result :: (own ++ .endDecl decl.kind result startTok :: es))

theorem Matched.append {es es' : List (Event R)} (h : Matched es) (h' : Matched es') : Matched (es ++ es') := by
  induction h with
  | nil => exact h'
  | plain he _ ih => exact .plain he ih
  | decl hown _ _ ih =>
    rw [cons_append, append_assoc, cons_append]
    exact .decl hown _ ih

theorem matched_of_all {es : List (Event R)} (h : All Plain es) : Matched es := by
  induction es with
  | nil => exact .nil
  | cons e es ih => exact .plain (h e mem_cons_self) (ih fun e' he => h e' (mem_cons_of_mem e he))

theorem Indented.cons {first rest : List Token} (h : Line first) (hhead : ∀ t ∈ first.head?, t.tokenKind = .indentation)
    (hrest : Indented rest) : Indented (first ++ rest) := by
  obtain ⟨lines, rfl, hlines⟩ := hrest
  refine ⟨first :: lines, rfl, fun l hl => ?_⟩
  rcases mem_cons.mp hl with rfl | hl
  · exact ⟨h, hhead⟩
  · exact hlines l hl

/-- A line behind the indentation that the parser is at. -/
theorem Went.cons (h : Went Line (All Q) p q) (hkind : p.tok.tokenKind = .indentation) (h' : Went Indented (All Q) q r) :
    Went Indented (All Q) p r := by
  obtain ⟨⟨ts, hconsumed, hts, hhead, hsize⟩, hevents⟩ := h
  have hfirst : ∀ t ∈ ts.head?, t.tokenKind = .indentation := by
    intro t ht
    rw [head?_append, ht] at hhead
    rw [Option.some.inj hhead]
    exact hkind
  refine Went.trans (L := fun a => Line a ∧ ∀ t ∈ a.head?, t.tokenKind = .indentation)
    ⟨⟨ts, hconsumed, ⟨hts, hfirst⟩, hhead, hsize⟩, hevents⟩ h' (fun ha hb => ?_) All.append
  exact hb.cons ha.1 ha.2

theorem Went.block (h : Went Line (All Q) p q) (h' : Went Indented (All Q) q r) : Went Block (All Q) p r :=
  h.trans h' (fun ha hb => ⟨_, _, rfl, ha, hb⟩) All.append

theorem parseBindings_done (p : Parser R) (kind : DeclKind) (result : R) (hmode : p.lexer.mode = .none) :
    Done Indented (All (Own kind result)) p (p.parseBindings kind result) := by
  fun_induction parseBindings p kind result with
  | case1 p h ih =>
    have hline := parseIndentedLine_done kind result h
    have hrest := ih hline.mode
    exact ⟨hline.toWent.cons h hrest.toWent, hrest.mode⟩
  | case2 p h => exact ⟨Went.refl p indented_nil, hmode⟩

theorem skipLines_done (hmode : p.lexer.mode = .none) :
    ∃ q, Went Line (All Q) p q ∧ Done Indented (All Q) q p.skipLines := by
  fun_induction skipLines p with
  | case1 p h ih =>
    have hline : Done Line (All Q) p p.skipPastEOL := (Went.start p).skip hmode
    obtain ⟨q, hfirst, hrest⟩ := ih hline.mode
    exact ⟨_, hline.toWent, hfirst.cons h hrest.toWent, hrest.mode⟩
  | case2 p h =>
    have hline : Done Line (All Q) p p.skipPastEOL := (Went.start p).skip hmode
    exact ⟨_, hline.toWent, Went.refl _ indented_nil, hline.mode⟩

theorem parseBody_done {kind : DeclKind} {specifier : Option R × Parser R} (startTok : Token)
    (h : Specified kind p specifier) : Done Block Matched p (parseBody startTok kind specifier) := by
  match specifier with
  | (none, q) =>
    obtain ⟨q', hline, hrest⟩ := skipLines_done (Q := IsError) h.mode
    refine ⟨((h.toWent.line hline).block hrest.toWent).mono id fun hes => ?_, hrest.mode⟩
    exact matched_of_all (hes.mono fun e => plain_of_isError)
  | (some result, q) =>
    obtain ⟨decl, q', rfl, hline, rfl⟩ := h
    have hrest := parseBindings_done (q'.emit (.beginDecl decl result)) decl.kind result hline.mode
    obtain ⟨htokens, es, hevents, hes⟩ := hline.toWent
    obtain rfl : es = [] := eq_nil_iff_forall_not_mem.mpr hes
    have hbegin : Went Line (· = [.beginDecl decl result]) p (q'.emit (.beginDecl decl result)) := by
      refine ⟨htokens, _, ?_, rfl⟩
      show q'.events ++ _ = _
      rw [hevents, append_nil]
    have hall : Went Block (fun es => ∃ own, es = .beginDecl decl result :: own ∧ All (Own decl.kind result) own) p _ :=
      hbegin.trans hrest.toWent (fun ha hb => ⟨_, _, rfl, ha, hb⟩) (fun ha hb => ⟨_, by rw [ha]; rfl, hb⟩)
    obtain ⟨htokens, _, hevents, own, rfl, hown⟩ := hall
    refine ⟨⟨htokens, _, ?_, Matched.decl hown startTok .nil⟩, hrest.mode⟩
    show _ ++ [Event.endDecl decl.kind result startTok] = _
    rw [hevents, append_assoc, cons_append]

theorem parseParameterizedDecl_done
    (h : p.tok.tokenKind = .kwBuild ∨ p.tok.tokenKind = .kwPool ∨ p.tok.tokenKind = .kwRule) :
    Done Block Matched p p.parseParameterizedDecl := by
  unfold parseParameterizedDecl
  rcases h with h | h | h
  · rw [h]
    exact parseBody_done _ (parseBuildSpecifier_specified h)
  · rw [h]
    exact parseBody_done _ (parseNameSpecifier_specified (fun _ => rfl) (by rw [h]; decide))
  · rw [h]
    exact parseBody_done _ (parseNameSpecifier_specified (fun _ => rfl) (by rw [h]; decide))

theorem parseDecl_done (hmode : p.lexer.mode = .none) : Done Block Matched p p.parseDecl := by
  have hline : ∀ {q}, Done Line (All Plain) p q → Done Block Matched p q := fun {q} h =>
    ⟨h.toWent.mono (fun {ts} hts => ⟨ts, [], (append_nil ts).symm, hts, indented_nil⟩) matched_of_all, h.mode⟩
  unfold parseDecl
  split
  · rename_i h
    exact hline ((Went.start p).finish hmode (.inl h))
  · rename_i h
    exact parseParameterizedDecl_done (.inl h)
  · rename_i h
    exact parseParameterizedDecl_done (.inr (.inr h))
  · rename_i h
    exact parseParameterizedDecl_done (.inr (.inl h))
  · rename_i h
    exact hline (parseDefaultDecl_done h)
  · rename_i h
    exact hline (parseIncludeDecl_done (.inl h))
  · rename_i h
    exact hline (parseIncludeDecl_done (.inr h))
  · exact hline (parseBindingDecl_done p)
  · exact hline (((Went.start p).error "unexpected token").skip hmode |>.mono fun e => plain_of_isError)

/-! ## Files -/

theorem not_block_nil : ¬ Block [] := fun ⟨_, _, hnil, hfirst, _⟩ =>
  not_line_nil ((append_eq_nil_iff.mp hnil.symm).1 ▸ hfirst)

/-- The loop of `parse`, which an assertion stops if the lexer is left in another mode. -/
def parseDecls (p : Parser R) : Parser R :=
  if _h : p.tok.tokenKind = .endOfFile ∨ p.lexer.mode ≠ .none then p else parseDecls p.parseDecl
termination_by p.size
decreasing_by
  rw [not_or, not_not] at _h
  exact (parseDecl_done _h.2).toWent.size_lt not_block_nil _h.1

variable (actions : List (Event R) → Decl → R)

/-- The parser at the first token. -/
def begin (data : List UInt8) : Parser R :=
  let next := getNextNonCommentToken (Lexer.new data)
  { lexer := next.2, tok := next.1, actions := actions, events := [.beginManifest "<main>"], consumed := [] }

def parse (data : List UInt8) : Parser R :=
  (begin actions data).parseDecls.emit .endManifest

/-- A top-level declaration starts here. -/
inductive Starts (actions : List (Event R) → Decl → R) (data : List UInt8) : Parser R → Prop
  | first : Starts actions data (begin actions data)
  | next {p : Parser R} (h : Starts actions data p) (hkind : p.tok.tokenKind ≠ .endOfFile) : Starts actions data p.parseDecl

theorem Starts.mode {actions : List (Event R) → Decl → R} {data : List UInt8} (h : Starts actions data p) :
    p.lexer.mode = .none := by
  induction h with
  | first => exact (next_getNextNonCommentToken (Lexer.new data)).mode
  | next _ _ ih => exact (parseDecl_done ih).mode

theorem parseDecls_spec (hmode : p.lexer.mode = .none) :
    p.parseDecls.tok.tokenKind = .endOfFile ∧ ∃ es, p.parseDecls.events = p.events ++ es ∧ Matched es := by
  fun_induction parseDecls p with
  | case1 p h => exact ⟨h.resolve_right (not_not_intro hmode), [], (append_nil _).symm, .nil⟩
  | case2 p h ih =>
    have hdecl := parseDecl_done hmode
    obtain ⟨hkind, es, hevents, hes⟩ := ih hdecl.mode
    obtain ⟨es', hevents', hes'⟩ := hdecl.events
    exact ⟨hkind, es' ++ es, by rw [hevents, hevents', append_assoc], hes'.append hes⟩

/-- The parser comes to the end, and the actions match. Each declaration starts in no special mode, and consumes a line
    and the indented lines below it. -/
theorem parse_recovers (actions : List (Event R) → Decl → R) (data : List UInt8) :
    (parse actions data).tok.tokenKind = .endOfFile ∧ Matched (parse actions data).events ∧
      ∀ p, Starts actions data p → p.lexer.mode = .none ∧
        ∃ ts, p.parseDecl.consumed = p.consumed ++ ts ∧ Block ts := by
  obtain ⟨hkind, es, hevents, hes⟩ := parseDecls_spec (next_getNextNonCommentToken (Lexer.new data)).mode
    (p := begin actions data)
  refine ⟨hkind, ?_, fun p hp => ⟨hp.mode, ?_⟩⟩
  · show Matched (_ ++ [_])
    rw [hevents]
    exact (Matched.append (.plain (e := .beginManifest "<main>") trivial hes)) (.plain trivial .nil)
  · obtain ⟨ts, hconsumed, hts, -⟩ := (parseDecl_done hp.mode).tokens
    exact ⟨ts, hconsumed, hts⟩

end Parser

end Ninja

end Builra
