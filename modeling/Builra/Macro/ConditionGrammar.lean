import Builra.Macro.ConditionScanner

namespace Builra.Macro

open List Option Nat

/-!
# `Macro.ConditionGrammar` — writing condition expressions

A condition tree is written with one space between its words, and in parentheses where an operand binds less tightly
than the grammar asks for at its place (`Tree.wordsAt`). Each parse function belongs to a level of the grammar
(`parseAt`). The loops of the binary operators are followed by what they hold after a left operand: the loop goes on
with it (`Loops`), so that a chain of operators of one level becomes one run of the loop.
-/

/-! ## Trees and their words -/

/-- The text of a constant, which is written in single quotes. -/
def Constant : Type :=
  { t : Text // ascii '\'' ∉ t ∧ ascii '"' ∉ t ∧ ascii '\\' ∉ t ∧ ascii '$' ∉ t }

/-- A condition of string constants and operators. -/
inductive Tree where
  | constant (t : Constant)
  | logicalNOT (expr : Tree)
  | binary (op : BinaryOperator) (leftExpr rightExpr : Tree)
  | ternaryConditional (condExpr thenExpr elseExpr : Tree)

/-- The expression that the tree stands for. -/
def Tree.toExpression : Tree → MacroConditionExpression
  | .constant t => .stringConstant (parseLiteralString t.1)
  | .logicalNOT expr => .logicalNOT expr.toExpression
  | .binary op leftExpr rightExpr => .binary op leftExpr.toExpression rightExpr.toExpression
  | .ternaryConditional condExpr thenExpr elseExpr =>
    .ternaryConditional condExpr.toExpression thenExpr.toExpression elseExpr.toExpression

inductive Word where
  | constant (t : Constant)
  | not
  | operator (op : BinaryOperator)
  | questionMark
  | colon
  | leftParen
  | rightParen

def BinaryOperator.type : BinaryOperator → TokenType
  | .equality => .equals
  | .inequality => .notEquals
  | .contains => .contains
  | .logicalAND => .and
  | .logicalOR => .or

def Word.type : Word → TokenType
  | .constant _ => .string
  | .not => .not
  | .operator op => op.type
  | .questionMark => .questionMark
  | .colon => .colon
  | .leftParen => .leftParen
  | .rightParen => .rightParen

def BinaryOperator.written : BinaryOperator → Text
  | .equality => text "=="
  | .inequality => text "!="
  | .contains => text "contains"
  | .logicalAND => text "&&"
  | .logicalOR => text "||"

def Word.written : Word → Text
  | .constant t => ascii '\'' :: t.1 ++ [ascii '\'']
  | .not => text "!"
  | .operator op => op.written
  | .questionMark => text "?"
  | .colon => text ":"
  | .leftParen => text "("
  | .rightParen => text ")"

/-- The words with a space between any two of them. -/
def spaced : List Word → Text
  | [] => []
  | [word] => word.written
  | word :: next :: words => word.written ++ ascii ' ' :: spaced (next :: words)

/-! ## Precedence

The levels of the grammar: 0 for an expression, 1 for `||`, 2 for `&&`, 3 for the comparisons, 4 for `!` and 5 for a
primary expression. -/

def BinaryOperator.level : BinaryOperator → Nat
  | .logicalOR => 1
  | .logicalAND => 2
  | _ => 3

theorem BinaryOperator.level_bounds (op : BinaryOperator) : 1 ≤ op.level ∧ op.level ≤ 3 := by
  cases op <;> decide

/-- The level of the rule that makes the expression. -/
def Tree.level : Tree → Nat
  | .constant _ => 5
  | .logicalNOT _ => 4
  | .binary op _ _ => op.level
  | .ternaryConditional _ _ _ => 0

/-- The words of an operand, in parentheses when the grammar asks for a level above its own. -/
def parenthesized (ownLevel level : Nat) (words : List Word) : List Word :=
  if ownLevel < level then .leftParen :: words ++ [.rightParen] else words

/-- The words of an expression by the rule of its own level. A binary operator has its own level on the left and the
next one on the right; the two alternatives of a ternary expression are expressions again. -/
def Tree.words : Tree → List Word
  | .constant t => [.constant t]
  | .logicalNOT expr => .not :: parenthesized expr.level 5 expr.words
  | .binary op leftExpr rightExpr =>
    parenthesized leftExpr.level op.level leftExpr.words
      ++ .operator op :: parenthesized rightExpr.level (op.level + 1) rightExpr.words
  | .ternaryConditional condExpr thenExpr elseExpr =>
    parenthesized condExpr.level 1 condExpr.words
      ++ .questionMark :: (thenExpr.words ++ .colon :: elseExpr.words)

/-- The text of a condition tree. -/
def Tree.written (e : Tree) : Text := spaced e.words

/-! ## Scanning the words -/

/-- The token is the word's. -/
def Spells (word : Word) (token : Token) : Prop :=
  token.type = word.type ∧ ∀ t, word = .constant t → token.text = t.1

theorem escaped_eq_self {quoteChar : UInt8} {t : Text} (hquote : quoteChar ∉ t) (hbackslash : ascii '\\' ∉ t) :
    escaped quoteChar t = t := by
  unfold escaped
  induction t with
  | nil => rfl
  | cons c t ih =>
    rw [mem_cons, not_or] at hquote hbackslash
    rw [flatMap_cons, ih hquote.2 hbackslash.2, if_neg]
    · rfl
    · rintro (rfl | rfl)
      · exact hbackslash.1 rfl
      · exact hquote.1 rfl

variable (string : Text)

/-- A word in front of a space, or at the end. -/
theorem getNextToken_word (word : Word) {after : Text}
    (hafter : after = [] ∨ ∃ rest, after = ascii ' ' :: rest) :
    ∃ token, getNextToken string (word.written ++ after) = some (token, after) ∧ Spells word token := by
  have hsymbol : ∀ {type : TokenType} {token : Token}, token.type = type → word.type = type →
      (∀ t, word ≠ .constant t) → Spells word token :=
    fun htoken hword hne => ⟨htoken.trans hword.symm, fun t ht => absurd ht (hne t)⟩
  cases word with
  | constant t =>
    have hscan := getNextToken_quoted string (.inl rfl) t.2.1 after
    rw [escaped_eq_self t.2.1 t.2.2.2.1] at hscan
    refine ⟨⟨.string, string.length - (t.1 ++ ascii '\'' :: after).length, t.1⟩, ?_, rfl, ?_⟩
    · show getNextToken string (ascii '\'' :: t.1 ++ [ascii '\''] ++ after) = _
      rw [append_assoc]
      exact hscan
    · rintro t' ⟨⟩
      rfl
  | not =>
    rcases hafter with rfl | ⟨rest, rfl⟩
    all_goals exact ⟨_, rfl, hsymbol rfl rfl (fun _ => Word.noConfusion)⟩
  | operator op =>
    cases op
    all_goals
      rcases hafter with rfl | ⟨rest, rfl⟩
      all_goals exact ⟨_, rfl, hsymbol rfl rfl (fun _ => Word.noConfusion)⟩
  | questionMark | colon | leftParen | rightParen => exact ⟨_, rfl, hsymbol rfl rfl (fun _ => Word.noConfusion)⟩

/-- The scanner skips a space. -/
theorem getNextToken_space (string rest : Text) :
    getNextToken string (ascii ' ' :: rest) = getNextToken string rest := by
  unfold getNextToken
  rw [dropWhile_cons_of_pos (by decide)]

theorem tokens_space (fuel : Nat) (rest : Text) :
    tokens string fuel (ascii ' ' :: rest) = tokens string fuel rest := by
  cases fuel with
  | zero => rfl
  | succ fuel => rw [tokens, tokens, getNextToken_space]

theorem tokens_spaced (words : List Word) {fuel : Nat} (hfuel : (spaced words).length < fuel) :
    List.Forall₂ Spells words (tokens string fuel (spaced words)) := by
  induction words using spaced.induct generalizing fuel with
  | case1 =>
    cases fuel with
    | zero | succ fuel => exact .nil
  | case2 word =>
    obtain ⟨fuel, rfl⟩ : ∃ k, fuel = k + 1 := ⟨fuel - 1, by omega⟩
    obtain ⟨token, hnext, hspells⟩ := getNextToken_word string word (.inl rfl)
    rw [append_nil] at hnext
    show List.Forall₂ Spells [word] (tokens string (fuel + 1) word.written)
    rw [tokens, hnext]
    refine .cons hspells ?_
    cases fuel with
    | zero | succ fuel => exact .nil
  | case3 word next words ih =>
    obtain ⟨fuel, rfl⟩ : ∃ k, fuel = k + 1 := ⟨fuel - 1, by omega⟩
    obtain ⟨token, hnext, hspells⟩ := getNextToken_word string word (.inr ⟨spaced (next :: words), rfl⟩)
    rw [spaced, length_append, length_cons] at hfuel
    rw [spaced, tokens, hnext]
    refine .cons hspells ?_
    show List.Forall₂ Spells _ (tokens string fuel (ascii ' ' :: spaced (next :: words)))
    rw [tokens_space]
    exact ih (by omega)

/-- The tokens of a condition tree are its words. -/
theorem tokensOf_written (e : Tree) : List.Forall₂ Spells e.words (tokensOf e.written) :=
  tokens_spaced _ _ (lt_succ_self _)

/-! ## Levels of the parser -/

/-- The level of the rule that goes on with the token after an operand. -/
def TokenType.level : TokenType → Option Nat
  | .questionMark => some 0
  | .or => some 1
  | .and => some 2
  | .equals => some 3
  | .notEquals => some 3
  | .contains => some 3
  | _ => none

/-- An expression of the level ends in front of these tokens. -/
def Ends (level : Nat) (rest : List Token) : Prop :=
  ∀ type ∈ nextType rest, ∀ m ∈ type.level, m < level

theorem Ends.mono {level level' : Nat} {rest : List Token} (h : Ends level rest) (hle : level ≤ level') :
    Ends level' rest :=
  fun type htype m hm => Nat.lt_of_lt_of_le (h type htype m hm) hle

theorem TokenType.level_le {type : TokenType} {m : Nat} (h : type.level = some m) : m ≤ 3 := by
  cases type <;> simp only [level, some.injEq, reduceCtorEq] at h <;> omega

/-- Nothing goes on with an operand of `!`. -/
theorem ends_four (rest : List Token) : Ends 4 rest :=
  fun _ _ _ hm => lt_succ_of_le (TokenType.level_le hm)

theorem ends_of_none {level : Nat} {token : Token} (rest : List Token) (h : token.type.level = none) :
    Ends level (token :: rest) := by
  rintro type ⟨⟩ m hm
  rw [h] at hm
  cases hm

section Levels

variable (parseExpression : List Token → Option ParsedExpression)

/-- The parse function of a level. -/
def parseAt : Nat → List Token → Option ParsedExpression
  | 0 => parseTernaryConditionalExpression parseExpression
  | 1 => parseLogicalORExpression parseExpression
  | 2 => parseLogicalANDExpression parseExpression
  | 3 => parseEqualityExpression parseExpression
  | 4 => parseUnaryExpression parseExpression
  | _ + 5 => parsePrimaryExpression parseExpression

/-- The operators of a level. -/
def operatorAt : Nat → TokenType → Option BinaryOperator
  | 1 => orOperator
  | 2 => andOperator
  | _ => equalityOperator

theorem parseAt_operands {level : Nat} (hlow : 1 ≤ level) (hhigh : level ≤ 3) :
    parseAt parseExpression level = parseOperands (operatorAt level) (parseAt parseExpression (level + 1)) := by
  obtain rfl | rfl | rfl : level = 1 ∨ level = 2 ∨ level = 3 := by omega
  all_goals rfl

theorem operatorAt_type (op : BinaryOperator) : operatorAt op.level op.type = some op := by
  cases op <;> rfl

theorem operatorAt_level {level : Nat} (hlow : 1 ≤ level) (hhigh : level ≤ 3) {type : TokenType} {op : BinaryOperator}
    (h : operatorAt level type = some op) : type.level = some level := by
  obtain rfl | rfl | rfl : level = 1 ∨ level = 2 ∨ level = 3 := by omega
  all_goals cases type <;> first | rfl | cases h

variable {parseExpression}

/-- A loop of binary operators goes no further. -/
theorem operandLoop_ends {level : Nat} (hlow : 1 ≤ level) (hhigh : level ≤ 3)
    {parseOperand : List Token → Option ParsedExpression} {left : ParsedExpression} (hends : Ends level left.tokens)
    {fuel : Nat} (hfuel : 0 < fuel) : operandLoop (operatorAt level) parseOperand fuel left = some left := by
  obtain ⟨fuel, rfl⟩ : ∃ k, fuel = k + 1 := ⟨fuel - 1, by omega⟩
  have hnone : (nextType left.tokens).bind (operatorAt level) = none := by
    apply eq_none_iff_forall_not_mem.mpr
    intro op hop
    obtain ⟨type, htype, hoperator⟩ := bind_eq_some_iff.mp hop
    exact Nat.lt_irrefl _ (hends type htype level (operatorAt_level hlow hhigh hoperator))
  rw [operandLoop, hnone]

/-- An expression of the next level is one of this level when no operator of this level follows. -/
theorem parseAt_lift {level : Nat} {tokens : List Token} {r : ParsedExpression} (hends : Ends level r.tokens)
    (hnot : level = 4 → nextType tokens ≠ some .not) (h : parseAt parseExpression (level + 1) tokens = some r) :
    parseAt parseExpression level tokens = some r := by
  by_cases hzero : level = 0
  · -- no `?` follows
    subst hzero
    have hquestion : nextType r.tokens ≠ some .questionMark := fun htype =>
      not_lt_zero _ (hends _ htype 0 rfl)
    show parseTernaryConditionalExpression parseExpression tokens = some r
    have hcond : parseLogicalORExpression parseExpression tokens = some r := h
    simp only [parseTernaryConditionalExpression, hcond, bind_eq_bind, bind_some, if_neg hquestion]
  · by_cases hhigh : level ≤ 3
    · rw [parseAt_operands parseExpression (by omega) hhigh, parseOperands, h]
      exact operandLoop_ends (by omega) hhigh hends (succ_pos _)
    · by_cases hfour : level = 4
      · subst hfour
        show parseUnaryExpression parseExpression tokens = some r
        rw [parseUnaryExpression, if_neg (hnot rfl)]
        exact h
      · obtain ⟨k, rfl⟩ : ∃ k, level = k + 5 := ⟨level - 5, by omega⟩
        exact h

/-- So is one of any level above it. -/
theorem parseAt_le {low high : Nat} (hle : low ≤ high) {tokens : List Token} {r : ParsedExpression}
    (hends : Ends low r.tokens) (hnot : 5 ≤ high → nextType tokens ≠ some .not)
    (h : parseAt parseExpression high tokens = some r) : parseAt parseExpression low tokens = some r := by
  induction high, hle using le_induction with
  | base => exact h
  | succ high hle ih =>
    refine ih (fun hfive => hnot (by omega)) (parseAt_lift (hends.mono hle) ?_ h)
    intro hfour
    exact hnot (by omega)

end Levels

/-! ## Parsing the words -/

theorem spells_append {words words' : List Word} {tokens : List Token}
    (h : List.Forall₂ Spells (words ++ words') tokens) :
    ∃ front back, tokens = front ++ back ∧ List.Forall₂ Spells words front ∧ List.Forall₂ Spells words' back := by
  induction words generalizing tokens with
  | nil => exact ⟨[], tokens, rfl, .nil, h⟩
  | cons word words ih =>
    obtain ⟨token, rest, hspells, hrest, rfl⟩ := forall₂_cons_left_iff.mp h
    obtain ⟨front, back, rfl, hfront, hback⟩ := ih hrest
    exact ⟨token :: front, back, rfl, .cons hspells hfront, hback⟩

/-- No tree begins with an operator. -/
theorem Tree.words_starts (e : Tree) :
    ∃ word words, e.words = word :: words ∧ (word.type = .string ∨ word.type = .not ∨ word.type = .leftParen) := by
  have hleft : ∀ {left : Tree} {level : Nat} {behind : List Word},
      (∃ word words, left.words = word :: words ∧
        (word.type = .string ∨ word.type = .not ∨ word.type = .leftParen)) →
      ∃ word words, parenthesized left.level level left.words ++ behind = word :: words ∧
        (word.type = .string ∨ word.type = .not ∨ word.type = .leftParen) := by
    intro left level behind hstarts
    unfold parenthesized
    split_ifs
    · exact ⟨.leftParen, _, rfl, .inr (.inr rfl)⟩
    · obtain ⟨word, words, heq, htype⟩ := hstarts
      rw [heq]
      exact ⟨word, _, rfl, htype⟩
  induction e with
  | constant t => exact ⟨_, _, rfl, .inl rfl⟩
  | logicalNOT expr _ => exact ⟨_, _, rfl, .inr (.inl rfl)⟩
  | binary op leftExpr rightExpr ih _ | ternaryConditional condExpr thenExpr elseExpr ih _ _ => exact hleft ih

theorem nextType_words {e : Tree} {tokens : List Token} (h : List.Forall₂ Spells e.words tokens) (rest : List Token) :
    ∃ type, nextType (tokens ++ rest) = some type ∧ (type = .string ∨ type = .not ∨ type = .leftParen) := by
  obtain ⟨word, words, hwords, htype⟩ := e.words_starts
  rw [hwords] at h
  obtain ⟨token, behind, hspells, -, rfl⟩ := forall₂_cons_left_iff.mp h
  refine ⟨token.type, rfl, ?_⟩
  rwa [hspells.1]

/-- Only a constant binds as tightly as a primary expression. -/
theorem nextType_of_primary {e : Tree} (hlevel : 5 ≤ e.level) {tokens rest : List Token}
    (h : List.Forall₂ Spells e.words tokens) : nextType (tokens ++ rest) ≠ some .not := by
  cases e with
  | constant t =>
    obtain ⟨token, behind, hspells, -, rfl⟩ := forall₂_cons_left_iff.mp h
    intro hnot
    have htype : token.type = .not := some.inj hnot
    rw [hspells.1] at htype
    exact TokenType.noConfusion htype
  | logicalNOT expr => exact absurd hlevel (show ¬5 ≤ 4 by decide)
  | binary op leftExpr rightExpr =>
    have hop : 5 ≤ op.level := hlevel
    have := op.level_bounds
    omega
  | ternaryConditional condExpr thenExpr elseExpr => exact absurd hlevel (show ¬5 ≤ 0 by decide)

/-- The rule of its own level reads the tree from its words. -/
def Parses (e : Tree) : Prop :=
  ∀ (fuel : Nat) (tokens rest : List Token), List.Forall₂ Spells e.words tokens → tokens.length ≤ fuel →
    Ends e.level rest → parseAt (parseExpression fuel) e.level (tokens ++ rest) = some ⟨e.toExpression, [], rest⟩

/-- A loop of binary operators goes on with the tree as its left operand. -/
def Loops (e : Tree) (level : Nat) : Prop :=
  ∀ (fuel : Nat) (tokens rest : List Token), List.Forall₂ Spells (parenthesized e.level level e.words) tokens →
    tokens.length ≤ fuel → Ends (level + 1) rest →
    ∃ m, rest.length < m ∧ parseAt (parseExpression fuel) level (tokens ++ rest) =
      operandLoop (operatorAt level) (parseAt (parseExpression fuel) (level + 1)) m ⟨e.toExpression, [], rest⟩

section Parses

variable {e : Tree} {level fuel : Nat} {tokens rest : List Token}

theorem Parses.below (h : Parses e) (hle : level ≤ e.level) (hwords : List.Forall₂ Spells e.words tokens)
    (hfuel : tokens.length ≤ fuel) (hends : Ends level rest) :
    parseAt (parseExpression fuel) level (tokens ++ rest) = some ⟨e.toExpression, [], rest⟩ :=
  parseAt_le hle hends (fun hprimary => nextType_of_primary hprimary hwords)
    (h fuel tokens rest hwords hfuel (hends.mono hle))

/-- An operand, with its parentheses. -/
theorem Parses.operand (h : Parses e) (hlevel : level ≤ 5)
    (hwords : List.Forall₂ Spells (parenthesized e.level level e.words) tokens) (hfuel : tokens.length ≤ fuel)
    (hends : Ends level rest) :
    parseAt (parseExpression fuel) level (tokens ++ rest) = some ⟨e.toExpression, [], rest⟩ := by
  unfold parenthesized at hwords
  split_ifs at hwords with hparen
  · obtain ⟨openParen, behind, hopen, hbehind, rfl⟩ := forall₂_cons_left_iff.mp hwords
    obtain ⟨inner, closing, rfl, hinner, hclosing⟩ := spells_append hbehind
    obtain ⟨closeParen, nothing, hclose, hnothing, rfl⟩ := forall₂_cons_left_iff.mp hclosing
    obtain rfl := forall₂_nil_left_iff.mp hnothing
    rw [length_cons, length_append, length_singleton] at hfuel
    obtain ⟨fuel, rfl⟩ : ∃ k, fuel = k + 1 := ⟨fuel - 1, by omega⟩
    have hopenType : openParen.type = .leftParen := hopen.1
    have hcloseType : closeParen.type = .rightParen := hclose.1
    apply parseAt_le hlevel hends
    · intro _ hnot
      have hnot : openParen.type = .not := some.inj hnot
      rw [hopenType] at hnot
      exact TokenType.noConfusion hnot
    · -- inside the parentheses there is an expression again
      have hexpr : parseExpression (fuel + 1) (inner ++ closeParen :: rest)
          = some ⟨e.toExpression, [], closeParen :: rest⟩ :=
        h.below (zero_le _) hinner (by omega) (ends_of_none rest (by rw [hcloseType]; rfl))
      have hnext : nextType (closeParen :: rest) = some .rightParen := congrArg some hcloseType
      show parsePrimaryExpression (parseExpression (fuel + 1)) (openParen :: (inner ++ [closeParen]) ++ rest) = _
      rw [cons_append, append_assoc, singleton_append, parsePrimaryExpression, if_pos hopenType, hexpr]
      simp only [bind_eq_bind, bind_some, if_pos hnext, tail_cons]
  · exact h.below (Nat.not_lt.mp hparen) hwords hfuel hends

theorem Parses.loops (h : Parses e) (hlow : 1 ≤ level) (hhigh : level ≤ 3) (hne : e.level ≠ level) :
    Loops e level := by
  intro fuel tokens rest hwords hfuel hends
  -- of another level, the tree is an operand of the next level, too
  have hnext : parenthesized e.level level e.words = parenthesized e.level (level + 1) e.words := by
    unfold parenthesized
    split_ifs <;> first | rfl | omega
  rw [hnext] at hwords
  refine ⟨rest.length + 1, lt_succ_self _, ?_⟩
  rw [parseAt_operands _ hlow hhigh, parseOperands, h.operand (by omega) hwords hfuel hends]
  rfl

theorem Loops.parses (h : Loops e e.level) (hlow : 1 ≤ e.level) (hhigh : e.level ≤ 3) : Parses e := by
  intro fuel tokens rest hwords hfuel hends
  have hown : parenthesized e.level e.level e.words = e.words := if_neg (Nat.lt_irrefl _)
  obtain ⟨m, hm, hloop⟩ := h fuel tokens rest (by rwa [hown]) hfuel (hends.mono (le_succ _))
  rw [hloop]
  exact operandLoop_ends hlow hhigh hends (by omega)

end Parses

/-- The loop takes the operator and its right operand. -/
theorem loops_binary {op : BinaryOperator} {leftExpr rightExpr : Tree} (hleft : Loops leftExpr op.level)
    (hright : Parses rightExpr) : Loops (.binary op leftExpr rightExpr) op.level := by
  intro fuel tokens rest hwords hfuel hends
  have hown : parenthesized (Tree.binary op leftExpr rightExpr).level op.level (Tree.binary op leftExpr rightExpr).words
      = (Tree.binary op leftExpr rightExpr).words := if_neg (Nat.lt_irrefl _)
  rw [hown] at hwords
  obtain ⟨leftTokens, behind, rfl, hleftWords, hbehind⟩ := spells_append hwords
  obtain ⟨operator, rightTokens, hoperator, hrightWords, rfl⟩ := forall₂_cons_left_iff.mp hbehind
  rw [length_append, length_cons] at hfuel
  have htype : operator.type = op.type := hoperator.1
  have hlevel : op.type.level = some op.level := by cases op <;> rfl
  have hendsOperator : Ends (op.level + 1) (operator :: (rightTokens ++ rest)) := by
    rintro type ⟨⟩ m hm
    rw [htype, hlevel] at hm
    cases hm
    exact lt_succ_self _
  obtain ⟨m, hm, hloop⟩ := hleft fuel leftTokens _ hleftWords (by omega) hendsOperator
  have hrightParses : parseAt (parseExpression fuel) (op.level + 1) (rightTokens ++ rest)
      = some ⟨rightExpr.toExpression, [], rest⟩ :=
    hright.operand (by have := op.level_bounds; omega) hrightWords (by omega) hends
  obtain ⟨m, rfl⟩ : ∃ k, m = k + 1 := ⟨m - 1, by omega⟩
  refine ⟨m, ?_, ?_⟩
  · rw [length_cons, length_append] at hm
    omega
  · have hnext : (nextType (operator :: (rightTokens ++ rest))).bind (operatorAt op.level) = some op := by
      show operatorAt op.level operator.type = some op
      rw [htype]
      exact operatorAt_type op
    rw [append_assoc, cons_append, hloop, operandLoop]
    dsimp only
    rw [hnext]
    dsimp only
    rw [tail_cons, hrightParses]
    rfl

theorem unescaped_eq_self {t : Text} (h : ascii '\\' ∉ t) : unescaped t = t := by
  induction t with
  | nil => rfl
  | cons c t ih =>
    rw [mem_cons, not_or] at h
    rw [unescaped_cons (Ne.symm h.1), ih h.2]

theorem parses_constant (t : Constant) : Parses (.constant t) := by
  intro fuel tokens rest hwords _ _
  obtain ⟨token, behind, hspells, hbehind, rfl⟩ := forall₂_cons_left_iff.mp hwords
  obtain rfl := forall₂_nil_left_iff.mp hbehind
  have htype : token.type ≠ .leftParen := by
    rw [hspells.1]
    exact TokenType.noConfusion
  have htext : unescaped token.text = t.1 := by
    rw [hspells.2 t rfl]
    exact unescaped_eq_self t.2.2.2.1
  have hdollar : ascii '$' ∉ t.1 := t.2.2.2.2
  have hdiagnostics : constantDiagnostics t.1 = [] := by
    unfold constantDiagnostics parseStringDiagnostics
    rw [if_neg hdollar]
    rfl
  have hparse : parseString t.1 = .ok (parseLiteralString t.1) := by
    unfold parseString
    rw [if_neg hdollar]
  show parsePrimaryExpression (parseExpression fuel) (token :: rest) = _
  rw [parsePrimaryExpression, if_neg htype, parseConstant]
  simp only [htext, hdiagnostics, hparse]
  rfl

theorem parses_logicalNOT {expr : Tree} (h : Parses expr) : Parses (.logicalNOT expr) := by
  intro fuel tokens rest hwords hfuel _
  obtain ⟨notToken, operand, hnot, hoperand, rfl⟩ := forall₂_cons_left_iff.mp hwords
  have hprimary : parseAt (parseExpression fuel) 5 (operand ++ rest) = some ⟨expr.toExpression, [], rest⟩ :=
    h.operand (Nat.le_refl 5) hoperand (le_of_succ_le hfuel) ((ends_four rest).mono (by omega))
  have hnext : nextType (notToken :: operand ++ rest) = some .not := congrArg some hnot.1
  show parseUnaryExpression (parseExpression fuel) (notToken :: operand ++ rest) = _
  rw [parseUnaryExpression, if_pos hnext]
  have htail : parsePrimaryExpression (parseExpression fuel) (notToken :: operand ++ rest).tail
      = some ⟨expr.toExpression, [], rest⟩ := hprimary
  rw [htail]
  cases expr <;> rfl

theorem parses_ternaryConditional {condExpr thenExpr elseExpr : Tree} (hcond : Parses condExpr)
    (hthen : Parses thenExpr) (helse : Parses elseExpr) :
    Parses (.ternaryConditional condExpr thenExpr elseExpr) := by
  intro fuel tokens rest hwords hfuel hends
  obtain ⟨condTokens, behind, rfl, hcondWords, hbehind⟩ := spells_append hwords
  obtain ⟨question, alternatives, hquestion, halternatives, rfl⟩ := forall₂_cons_left_iff.mp hbehind
  obtain ⟨thenTokens, behind, rfl, hthenWords, hbehind⟩ := spells_append halternatives
  obtain ⟨colon, elseTokens, hcolon, helseWords, rfl⟩ := forall₂_cons_left_iff.mp hbehind
  simp only [length_append, length_cons] at hfuel
  obtain ⟨fuel, rfl⟩ : ∃ k, fuel = k + 1 := ⟨fuel - 1, by omega⟩
  have hquestionType : nextType (question :: (thenTokens ++ colon :: elseTokens ++ rest)) = some .questionMark :=
    congrArg some hquestion.1
  have hcolonType : nextType (colon :: (elseTokens ++ rest)) = some .colon := congrArg some hcolon.1
  have hcondParses : parseLogicalORExpression (parseExpression (fuel + 1))
      (condTokens ++ question :: (thenTokens ++ colon :: elseTokens ++ rest))
      = some ⟨condExpr.toExpression, [], question :: (thenTokens ++ colon :: elseTokens ++ rest)⟩ := by
    refine hcond.operand (show 1 ≤ 5 by omega) hcondWords (by omega) ?_
    rintro type ⟨⟩ m hm
    rw [hquestion.1] at hm
    cases hm
    exact Nat.one_pos
  have hthenParses : parseExpression (fuel + 1) (thenTokens ++ colon :: (elseTokens ++ rest))
      = some ⟨thenExpr.toExpression, [], colon :: (elseTokens ++ rest)⟩ :=
    hthen.below (zero_le _) hthenWords (by omega) (ends_of_none _ (by rw [hcolon.1]; rfl))
  have helseParses : parseExpression (fuel + 1) (elseTokens ++ rest) = some ⟨elseExpr.toExpression, [], rest⟩ :=
    helse.below (zero_le _) helseWords (by omega) hends
  -- the alternative is written, so that the `:` does not come right away
  have hwritten : nextType (thenTokens ++ colon :: (elseTokens ++ rest)) ≠ some .colon := by
    obtain ⟨type, htype, hstarts⟩ := nextType_words hthenWords (colon :: (elseTokens ++ rest))
    rw [htype]
    rcases hstarts with rfl | rfl | rfl <;> exact fun h => TokenType.noConfusion (some.inj h)
  show parseTernaryConditionalExpression (parseExpression (fuel + 1)) _ = _
  rw [append_assoc, cons_append, parseTernaryConditionalExpression, hcondParses]
  simp only [bind_eq_bind, bind_some]
  rw [if_pos hquestionType, tail_cons, append_assoc, cons_append, parseThenPart, if_neg hwritten,
    hthenParses]
  simp only [bind_some]
  rw [if_pos hcolonType, tail_cons, helseParses]
  rfl

/-- Every tree is read by its rule, and by the loops of the binary operators. -/
theorem parses_loops (e : Tree) : Parses e ∧ ∀ level, 1 ≤ level → level ≤ 3 → Loops e level := by
  have hloops : ∀ {e : Tree}, Parses e → (1 ≤ e.level → e.level ≤ 3 → Loops e e.level) →
      Parses e ∧ ∀ level, 1 ≤ level → level ≤ 3 → Loops e level := by
    intro e hparses hown
    refine ⟨hparses, fun level hlow hhigh => ?_⟩
    by_cases heq : e.level = level
    · subst heq
      exact hown hlow hhigh
    · exact hparses.loops hlow hhigh heq
  induction e with
  | constant t => exact hloops (parses_constant t) (fun _ h => absurd h (show ¬5 ≤ 3 by decide))
  | logicalNOT expr ih => exact hloops (parses_logicalNOT ih.1) (fun _ h => absurd h (show ¬4 ≤ 3 by decide))
  | binary op leftExpr rightExpr ihLeft ihRight =>
    obtain ⟨hlow, hhigh⟩ := op.level_bounds
    have hown := loops_binary (ihLeft.2 op.level hlow hhigh) ihRight.1
    exact hloops (hown.parses hlow hhigh) (fun _ _ => hown)
  | ternaryConditional condExpr thenExpr elseExpr ihCond ihThen ihElse =>
    exact hloops (parses_ternaryConditional ihCond.1 ihThen.1 ihElse.1) (fun h _ => absurd h (show ¬1 ≤ 0 by decide))

theorem Tree.toExpression_injective : Function.Injective Tree.toExpression := by
  intro e
  induction e with
  | constant t =>
    intro e' h
    cases e' with
    | constant t' =>
      have htext : t.1 = t'.1 := congrArg MacroExpression.stringRep (MacroConditionExpression.stringConstant.inj h)
      exact congrArg Tree.constant (Subtype.ext htext)
    | _ => cases h
  | logicalNOT expr ih =>
    intro e' h
    cases e' with
    | logicalNOT expr' => rw [ih (MacroConditionExpression.logicalNOT.inj h)]
    | _ => cases h
  | binary op leftExpr rightExpr ihLeft ihRight =>
    intro e' h
    cases e' with
    | binary op' leftExpr' rightExpr' =>
      obtain ⟨rfl, hleft, hright⟩ := MacroConditionExpression.binary.inj h
      rw [ihLeft hleft, ihRight hright]
    | _ => cases h
  | ternaryConditional condExpr thenExpr elseExpr ihCond ihThen ihElse =>
    intro e' h
    cases e' with
    | ternaryConditional condExpr' thenExpr' elseExpr' =>
      obtain ⟨hcond, hthen, helse⟩ := MacroConditionExpression.ternaryConditional.inj h
      rw [ihCond hcond, ihThen hthen, ihElse helse]
    | _ => cases h

/-- Parsing the text of a tree gives the tree's expression, which no other tree has. -/
theorem fromString_written :
    (∀ e : Tree, fromString e.written = (e.toExpression, [])) ∧ Function.Injective Tree.toExpression := by
  refine ⟨fun e => ?_, Tree.toExpression_injective⟩
  have hwords := tokensOf_written e
  have hne : e.written ≠ [] := by
    intro hnil
    obtain ⟨word, words, heq, -⟩ := e.words_starts
    rw [hnil, heq] at hwords
    cases hwords
  have hnothing : Ends 0 [] := by rintro type ⟨⟩
  have hparses := (parses_loops e).1.below (zero_le _) hwords (Nat.le_refl _) hnothing
  rw [append_nil] at hparses
  have hexpr : parseExpression ((tokensOf e.written).length + 1) (tokensOf e.written) = some ⟨e.toExpression, [], []⟩ :=
    hparses
  rw [fromString, if_neg hne, hexpr]

end Builra.Macro
