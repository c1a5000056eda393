import Builra.Lib.Loop
import Mathlib.Algebra.Group.Nat.Defs
import Mathlib.Data.List.Infix

namespace Builra

open List Nat
open Bool hiding not_or or_assoc

/-!
# `Ninja.Lexer` — the tokens of Ninja manifests

A position in the buffer is what is left of it. Characters are signed, and the end of the buffer is the character -1,
which is also the byte 255. Numbers of lines and columns, and lengths of tokens, are `unsigned`.
-/

namespace Ninja

inductive TokenKind where
  | colon
  | comment
  | endOfFile
  | equals
  | indentation
  | identifier
  | kwBuild
  | kwDefault
  | kwInclude
  | kwPool
  | kwRule
  | kwSubninja
  | newline
  | pipe
  | pipePipe
  | string
  | unknown
deriving DecidableEq, Repr

structure Token where
  /-- What is left of the buffer at the start of the token. -/
  start : List UInt8
  tokenKind : TokenKind
  length : Nat
  line : Nat
  column : Nat
deriving DecidableEq

inductive LexingMode where
  | none
  | identifierSpecific
  | pathString
  | variableString
deriving DecidableEq, Repr

structure Lexer where
  bufferPos : List UInt8
  lineNumber : Nat
  columnNumber : Nat
  mode : LexingMode
deriving DecidableEq

/-- A byte as a `char`. -/
def char (b : UInt8) : Int := b.toInt8.toInt

/-- The bytes of a literal of the source. -/
def chars (s : String) : List UInt8 := s.toList.map Char.toUInt8

def isIdentifierChar (c : Int) : Bool :=
  (c ≥ 97 && c ≤ 122) || (c ≥ 65 && c ≤ 90) || (c ≥ 48 && c ≤ 57) || c = 95 || c = 46 || c = 45

/-- `isspace` in the C locale. -/
def isspace (c : Int) : Bool := c = 32 || (9 ≤ c && c ≤ 13)

def isNonNewlineSpace (c : Int) : Bool := isspace c && c ≠ 10 && c ≠ 13

namespace Lexer

/-- `Lexer(buffer)` -/
def new (buffer : List UInt8) : Lexer where
  bufferPos := buffer
  lineNumber := 1
  columnNumber := 0
  mode := .none

variable (l : Lexer)

def setMode (value : LexingMode) : Lexer := { l with mode := value }

def peekNextChar : Int :=
  match l.bufferPos with
  | [] => -1
  | b :: _ => char b

/-- What follows a newline character, without the other half of the newline. -/
def stripNewline (result : Int) : List UInt8 → List UInt8
  | [] => []
  | b :: rest => if char b = 10 + 13 - result then rest else b :: rest

def getNextChar : Int × Lexer :=
  match l.bufferPos with
  | [] => (-1, l)
  | b :: rest =>
    if char b = 10 ∨ char b = 13 then
      (10, { l with bufferPos := stripNewline (char b) rest
                    lineNumber := (l.lineNumber + 1) % 2 ^ 32
                    columnNumber := 0 })
    else (char b, { l with bufferPos := rest, columnNumber := (l.columnNumber + 1) % 2 ^ 32 })

/-- The lexer behind the next character. -/
def next : Lexer := l.getNextChar.2

/-- A loop that consumes at least one character in each turn. -/
def loop (turn : Lexer → Option Lexer) (l : Lexer) : Lexer := Loop.turns turn l.bufferPos.length l

/-- Consumes characters with a property. -/
def skipWhile (p : Int → Bool) : Lexer → Lexer :=
  loop (fun l => if p l.peekNextChar then some l.next else none)

def skipToEndOfLine : Lexer → Lexer := skipWhile (fun c => !(c = -1 || c = 10 || c = 13))

/-- `setIdentifierTokenKind`, for the token between two positions. -/
def identifierTokenKind (start stop : Lexer) : TokenKind :=
  let length := (start.bufferPos.length - stop.bufferPos.length) % 2 ^ 32
  if length = 4 ∧ start.bufferPos.take 4 = chars "rule" then .kwRule
  else if length = 4 ∧ start.bufferPos.take 4 = chars "pool" then .kwPool
  else if length = 5 ∧ start.bufferPos.take 5 = chars "build" then .kwBuild
  else if length = 7 ∧ start.bufferPos.take 7 = chars "default" then .kwDefault
  else if length = 7 ∧ start.bufferPos.take 7 = chars "include" then .kwInclude
  else if length = 8 ∧ start.bufferPos.take 7 = (chars "subninja").take 7 then .kwSubninja
  else .identifier

/-- `lexIdentifier`; the first character has been consumed. -/
def lexIdentifier (start l : Lexer) : TokenKind × Lexer :=
  let stop := l.skipWhile isIdentifierChar
  if l.mode = .identifierSpecific then (.identifier, stop)
  else (identifierTokenKind start stop, stop)

def pathTurn : Option Lexer :=
  let c := l.peekNextChar
  if c = 36 then
    let (c, l) := l.next.getNextChar
    some (if c = 10 then l.skipWhile isNonNewlineSpace else l)
  else if isspace c || c = 58 || c = 124 || c = -1 then none
  else some l.next

def lexPathString : TokenKind × Lexer := (.string, l.loop pathTurn)

def variableTurn : Option Lexer :=
  let c := l.peekNextChar
  if c = 36 then some l.next.next
  else if c = 10 || c = -1 || c = 13 then none
  else some l.next

def lexVariableString : TokenKind × Lexer := (.string, l.loop variableTurn)

/-- What follows a `$` begins with a newline that it escapes. -/
def startsNewline : List UInt8 → Bool
  | [] => false
  | [b] => char b = 10
  | b :: b' :: _ => char b = 10 || (char b = 13 && char b' = 10)

/-- The loop over leading whitespace and newline escapes. -/
def blankTurn : Option Lexer :=
  let c := l.peekNextChar
  if c = 36 ∧ l.columnNumber ≠ 0 then if startsNewline l.bufferPos.tail then some l.next.next else none
  else if isNonNewlineSpace c then some l.next
  else none

/-- The loop asks what follows a `$`, and nothing does: with `bufferPos + 1` the end of the buffer, `bufferPos + 2` is
    not, and `bufferPos[1]` is read. -/
def readsPastEnd : Prop := l.peekNextChar = 36 ∧ l.columnNumber ≠ 0 ∧ l.bufferPos.tail = []

instance (l : Lexer) : Decidable l.readsPastEnd := inferInstanceAs (Decidable (_ ∧ _ ∧ _))

/-- The token that starts here, and where it stops. -/
def lexToken : TokenKind × Lexer :=
  let c := l.peekNextChar
  if c = 10 ∨ c = 13 then (.newline, l.next)
  else if c = -1 then (.endOfFile, l)
  else if l.mode = .variableString then l.lexVariableString
  else if l.mode = .pathString ∧ c ≠ 58 ∧ c ≠ 124 then l.lexPathString
  else if c = 58 then (.colon, l.next)
  else if c = 61 then (.equals, l.next)
  else if c = 35 then (.comment, l.next.skipToEndOfLine)
  else if c = 124 then
    if l.next.peekNextChar = 124 then (.pipePipe, l.next.next) else (.pipe, l.next)
  else if isIdentifierChar c then lexIdentifier l l.next
  else (.unknown, l.next)

/-- Leading whitespace at the start of a line is a token. -/
def atIndentation : Bool := isNonNewlineSpace l.peekNextChar && l.columnNumber = 0

/-- Where the next token starts. -/
def tokenStart : Lexer := if l.atIndentation then l else l.loop blankTurn

/-- The kind of the next token, and where it stops. -/
def tokenStop : TokenKind × Lexer :=
  if l.atIndentation then (.indentation, l.next.skipWhile isNonNewlineSpace) else l.tokenStart.lexToken

/-- `lex`; none if it reads outside the buffer. -/
def lex : Option (Token × Lexer) :=
  if l.tokenStart.readsPastEnd then none
  else
    let start := l.tokenStart
    let (tokenKind, stop) := l.tokenStop
    some ({ start := start.bufferPos
            tokenKind := tokenKind
            length := (start.bufferPos.length - stop.bufferPos.length) % 2 ^ 32
            line := start.lineNumber
            column := start.columnNumber }, stop)

/-! ## Consuming characters -/

variable {b : UInt8} {rest text : List UInt8} {p : Int → Bool} {keyword : List UInt8 × TokenKind}

theorem char_inj {b' : UInt8} : char b = char b' ↔ b = b' := by
  constructor
  · intro h
    have h8 : b.toInt8 = b'.toInt8 := Int8.toInt_inj.mp h
    rw [← UInt8.toUInt8_toInt8 b, h8, UInt8.toUInt8_toInt8]
  · rintro rfl
    rfl

theorem char_eq_iff (b c : UInt8) (n : Int) (hc : char c = n) : char b = n ↔ b = c := by
  rw [← hc, char_inj]

theorem char_eq_10 (b : UInt8) : char b = 10 ↔ b = 10 := char_eq_iff b 10 10 rfl

theorem char_eq_13 (b : UInt8) : char b = 13 ↔ b = 13 := char_eq_iff b 13 13 rfl

variable {l l' : Lexer}

theorem peekNextChar_eq (h : l.bufferPos = b :: rest) : l.peekNextChar = char b := by
  rw [peekNextChar, h]

theorem next_of_nil (h : l.bufferPos = []) : l.next = l := by
  rw [next, getNextChar, h]

/-- The text of a newline. -/
def IsNewline (text : List UInt8) : Prop := text = [10] ∨ text = [13] ∨ text = [10, 13] ∨ text = [13, 10]

/-- A newline, or another character. -/
theorem next_of_cons (h : l.bufferPos = b :: rest) :
    l.next.mode = l.mode ∧ ∃ text, l.bufferPos = text ++ l.next.bufferPos ∧
      ((text = [b] ∧ b ≠ 10 ∧ b ≠ 13) ∨ (IsNewline text ∧ text.head? = some b)) := by
  unfold next getNextChar
  rw [h]
  simp only
  by_cases hnewline : char b = 10 ∨ char b = 13
  · rw [if_pos hnewline]
    refine ⟨rfl, ?_⟩
    show ∃ text, b :: rest = text ++ stripNewline (char b) rest ∧ _
    rw [char_eq_10, char_eq_13] at hnewline
    cases rest with
    | nil =>
      refine ⟨[b], rfl, .inr ⟨?_, rfl⟩⟩
      rcases hnewline with rfl | rfl
      · exact .inl rfl
      · exact .inr (.inl rfl)
    | cons b' rest =>
      rw [stripNewline]
      rcases hnewline with rfl | rfl
      · by_cases hb' : char b' = 10 + 13 - char 10
        · rw [if_pos hb']
          obtain rfl : b' = 13 := (char_eq_13 b').mp hb'
          exact ⟨[10, 13], rfl, .inr ⟨.inr (.inr (.inl rfl)), rfl⟩⟩
        · rw [if_neg hb']
          exact ⟨[10], rfl, .inr ⟨.inl rfl, rfl⟩⟩
      · by_cases hb' : char b' = 10 + 13 - char 13
        · rw [if_pos hb']
          obtain rfl : b' = 10 := (char_eq_10 b').mp hb'
          exact ⟨[13, 10], rfl, .inr ⟨.inr (.inr (.inr rfl)), rfl⟩⟩
        · rw [if_neg hb']
          exact ⟨[13], rfl, .inr ⟨.inr (.inl rfl), rfl⟩⟩
  · rw [if_neg hnewline]
    rw [char_eq_10, char_eq_13, not_or] at hnewline
    exact ⟨rfl, [b], rfl, .inl ⟨rfl, hnewline.1, hnewline.2⟩⟩

theorem next_bufferPos (h : l.bufferPos = b :: rest) (hb : b ≠ 10 ∧ b ≠ 13) :
    l.next.bufferPos = rest := by
  obtain ⟨-, text, htext, ⟨rfl, -⟩ | ⟨hnewline, hhead⟩⟩ := next_of_cons h
  · rw [h] at htext
    exact (List.cons.inj htext).2.symm
  · rcases hnewline with rfl | rfl | rfl | rfl
    · exact absurd (Option.some.inj hhead).symm hb.1
    · exact absurd (Option.some.inj hhead).symm hb.2
    · exact absurd (Option.some.inj hhead).symm hb.1
    · exact absurd (Option.some.inj hhead).symm hb.2

/-- The lexer went on in its buffer. -/
structure Passed (l l' : Lexer) : Prop where
  suffix : l'.bufferPos <:+ l.bufferPos
  mode : l'.mode = l.mode

theorem Passed.refl (l : Lexer) : Passed l l := ⟨suffix_rfl, rfl⟩

theorem Passed.trans {l'' : Lexer} (h : Passed l l') (h' : Passed l' l'') : Passed l l'' :=
  ⟨h'.suffix.trans h.suffix, h'.mode.trans h.mode⟩

theorem passed_next (l : Lexer) : Passed l l.next := by
  cases h : l.bufferPos with
  | nil =>
    rw [next_of_nil h]
    exact Passed.refl l
  | cons b rest =>
    obtain ⟨hmode, text, htext, -⟩ := next_of_cons h
    exact ⟨⟨text, htext.symm⟩, hmode⟩

theorem next_length_lt (h : l.bufferPos ≠ []) : l.next.bufferPos.length < l.bufferPos.length := by
  obtain ⟨b, rest, hcons⟩ := exists_cons_of_ne_nil h
  obtain ⟨-, text, htext, hcases⟩ := next_of_cons hcons
  have hne : text ≠ [] := by
    rcases hcases with ⟨rfl, -⟩ | ⟨-, hhead⟩
    · exact cons_ne_nil b []
    · rintro rfl
      cases hhead
  have hpos := length_pos_iff.mpr hne
  rw [htext, length_append]
  omega

theorem ne_nil_of_peek {c : Int} (h : l.peekNextChar = c) (hc : c ≠ -1) : l.bufferPos ≠ [] := by
  intro hnil
  rw [peekNextChar, hnil] at h
  exact hc h.symm

/-! ## Loops -/

/-- Each turn consumes something. -/
def Consumes (turn : Lexer → Option Lexer) : Prop :=
  ∀ l l', turn l = some l' → Passed l l' ∧ l'.bufferPos.length < l.bufferPos.length

variable {turn : Lexer → Option Lexer}

section

variable (h : Consumes turn)
include h

theorem passed_loop (l : Lexer) : Passed l (l.loop turn) :=
  Loop.turns_induction (fun s t hs hturn => hs.trans (h s t hturn).1) (Passed.refl l) _

theorem turn_loop (l : Lexer) : turn (l.loop turn) = none :=
  Loop.turn_turns (fun s t hturn => (h s t hturn).2) (Nat.le_refl _)

theorem loop_of_some (hturn : turn l = some l') : l.loop turn = l'.loop turn :=
  Loop.turns_of_some (fun s t hs => (h s t hs).2) hturn

theorem loop_length_lt (hturn : turn l = some l') :
    (l.loop turn).bufferPos.length < l.bufferPos.length := by
  rw [loop_of_some h hturn]
  exact Nat.lt_of_le_of_lt (passed_loop h l').suffix.length_le (h l l' hturn).2

end

theorem consumes_skip (hp : p (-1) = false) :
    Consumes (fun l => if p l.peekNextChar then some l.next else none) := by
  intro l l' hturn
  change (if p l.peekNextChar = true then some l.next else none) = some l' at hturn
  by_cases hpeek : p l.peekNextChar = true
  · rw [if_pos hpeek] at hturn
    cases hturn
    refine ⟨passed_next l, next_length_lt (ne_nil_of_peek rfl ?_)⟩
    intro hend
    rw [hend, hp] at hpeek
    cases hpeek
  · rw [if_neg hpeek] at hturn
    cases hturn

theorem passed_skipWhile (hp : p (-1) = false) (l : Lexer) : Passed l (l.skipWhile p) :=
  passed_loop (consumes_skip hp) l

theorem consumes_pathTurn : Consumes pathTurn := by
  intro l l' hturn
  unfold pathTurn at hturn
  simp only at hturn
  by_cases hdollar : l.peekNextChar = 36
  · rw [if_pos hdollar] at hturn
    have hnext := next_length_lt (ne_nil_of_peek hdollar (by decide))
    have hpassed : Passed l l.next.next := (passed_next l).trans (passed_next l.next)
    have hlt : l.next.next.bufferPos.length < l.bufferPos.length :=
      Nat.lt_of_le_of_lt (passed_next l.next).suffix.length_le hnext
    cases hturn
    by_cases hnewline : l.next.getNextChar.1 = 10
    · rw [if_pos hnewline]
      have hspaces : Passed l.next.next (l.next.next.skipWhile isNonNewlineSpace) := passed_skipWhile rfl _
      exact ⟨hpassed.trans hspaces, Nat.lt_of_le_of_lt hspaces.suffix.length_le hlt⟩
    · rw [if_neg hnewline]
      exact ⟨hpassed, hlt⟩
  · rw [if_neg hdollar] at hturn
    by_cases hstop : (isspace l.peekNextChar || l.peekNextChar = 58 || l.peekNextChar = 124 || l.peekNextChar = -1) = true
    · rw [if_pos hstop] at hturn
      cases hturn
    · rw [if_neg hstop] at hturn
      cases hturn
      refine ⟨passed_next l, next_length_lt (ne_nil_of_peek rfl ?_)⟩
      intro hend
      rw [hend] at hstop
      exact hstop rfl

theorem consumes_variableTurn : Consumes variableTurn := by
  intro l l' hturn
  unfold variableTurn at hturn
  simp only at hturn
  by_cases hdollar : l.peekNextChar = 36
  · rw [if_pos hdollar] at hturn
    cases hturn
    refine ⟨(passed_next l).trans (passed_next l.next), ?_⟩
    exact Nat.lt_of_le_of_lt (passed_next l.next).suffix.length_le
      (next_length_lt (ne_nil_of_peek hdollar (by decide)))
  · rw [if_neg hdollar] at hturn
    by_cases hstop : (l.peekNextChar = 10 || l.peekNextChar = -1 || l.peekNextChar = 13) = true
    · rw [if_pos hstop] at hturn
      cases hturn
    · rw [if_neg hstop] at hturn
      cases hturn
      refine ⟨passed_next l, next_length_lt (ne_nil_of_peek rfl ?_)⟩
      intro hend
      rw [hend] at hstop
      exact hstop rfl

/-! ## Where a token starts -/

/-- Whitespace and newline escapes. -/
inductive Blank : List UInt8 → Prop
  | nil : Blank []
  | space {b gap} (hb : isNonNewlineSpace (char b) = true) (hgap : Blank gap) : Blank (b :: gap)
  | escape {newline gap} (hnewline : IsNewline newline) (hgap : Blank gap) :
      Blank (36 :: (newline ++ gap))

theorem Blank.append {gap gap' : List UInt8} (h : Blank gap) (h' : Blank gap') : Blank (gap ++ gap') := by
  induction h with
  | nil => exact h'
  | space hb _ ih => exact .space hb ih
  | escape hnewline _ ih =>
    rw [cons_append, append_assoc]
    exact .escape hnewline ih

theorem peek_eq_end : l.peekNextChar = -1 ↔ l.bufferPos = [] ∨ l.bufferPos.head? = some 255 := by
  cases h : l.bufferPos with
  | nil =>
    rw [peekNextChar, h]
    exact ⟨fun _ => .inl rfl, fun _ => rfl⟩
  | cons b rest =>
    rw [peekNextChar_eq h, char_eq_iff b 255 (-1) rfl]
    constructor
    · rintro rfl
      exact .inr rfl
    · rintro (hnil | hhead)
      · cases hnil
      · exact Option.some.inj hhead

/-- The bytes at a character that is not the end. -/
theorem cons_of_peek {c : Int} (b : UInt8) (hb : char b = c) (hc : c ≠ -1) (h : l.peekNextChar = c) :
    ∃ rest, l.bufferPos = b :: rest := by
  obtain ⟨b', rest, hcons⟩ := exists_cons_of_ne_nil (ne_nil_of_peek h hc)
  rw [peekNextChar_eq hcons, char_eq_iff b' b c hb] at h
  exact ⟨rest, by rw [hcons, h]⟩

/-- A turn over leading whitespace consumes a piece of it. -/
theorem blank_blankTurn (h : blankTurn l = some l') :
    l'.mode = l.mode ∧ ∃ gap, gap ≠ [] ∧ Blank gap ∧ l.bufferPos = gap ++ l'.bufferPos := by
  unfold blankTurn at h
  simp only at h
  by_cases hdollar : l.peekNextChar = 36 ∧ l.columnNumber ≠ 0
  · rw [if_pos hdollar] at h
    obtain ⟨rest, hrest⟩ := cons_of_peek 36 rfl (by decide) hdollar.1
    have hnext : l.next.bufferPos = rest := next_bufferPos hrest ⟨by decide, by decide⟩
    rw [hrest, tail_cons] at h
    by_cases hstarts : startsNewline rest = true
    · rw [if_pos hstarts] at h
      cases h
      refine ⟨(passed_next l.next).mode.trans (passed_next l).mode, ?_⟩
      obtain ⟨b, rest', rfl⟩ : ∃ b rest', rest = b :: rest' := by
        cases rest with
        | nil => cases hstarts
        | cons b rest' => exact ⟨b, rest', rfl⟩
      have hb : b = 10 ∨ b = 13 := by
        cases rest' with
        | nil => exact .inl ((char_eq_10 b).mp (of_decide_eq_true hstarts))
        | cons b' _ =>
          rcases or_eq_true_iff.mp hstarts with h10 | h13
          · exact .inl ((char_eq_10 b).mp (of_decide_eq_true h10))
          · exact .inr ((char_eq_13 b).mp (of_decide_eq_true (and_eq_true_iff.mp h13).1))
      obtain ⟨-, text, htext, ⟨-, h10, h13⟩ | ⟨hnewline, -⟩⟩ := next_of_cons hnext
      · rcases hb with rfl | rfl
        · exact absurd rfl h10
        · exact absurd rfl h13
      · refine ⟨36 :: (text ++ []), cons_ne_nil _ _, .escape hnewline .nil, ?_⟩
        rw [hrest, append_nil, cons_append, ← htext, hnext]
    · rw [if_neg hstarts] at h
      cases h
  · rw [if_neg hdollar] at h
    by_cases hspace : isNonNewlineSpace l.peekNextChar = true
    · rw [if_pos hspace] at h
      cases h
      refine ⟨(passed_next l).mode, ?_⟩
      have hne : l.bufferPos ≠ [] := by
        refine ne_nil_of_peek rfl fun hend => ?_
        rw [hend] at hspace
        cases hspace
      obtain ⟨b, rest, hcons⟩ := exists_cons_of_ne_nil hne
      rw [peekNextChar_eq hcons] at hspace
      have hb : b ≠ 10 ∧ b ≠ 13 := by
        constructor
        · rintro rfl
          cases hspace
        · rintro rfl
          cases hspace
      refine ⟨[b], cons_ne_nil _ _, .space hspace .nil, ?_⟩
      rw [hcons, next_bufferPos hcons hb, singleton_append]
    · rw [if_neg hspace] at h
      cases h

theorem consumes_blankTurn : Consumes blankTurn := by
  intro l l' hturn
  obtain ⟨hmode, gap, hne, -, hgap⟩ := blank_blankTurn hturn
  refine ⟨⟨⟨gap, hgap.symm⟩, hmode⟩, ?_⟩
  have hpos := length_pos_iff.mpr hne
  rw [hgap, length_append]
  omega

/-- Only whitespace and newline escapes lie before a token. -/
theorem blank_tokenStart (l : Lexer) : ∃ gap, Blank gap ∧ l.bufferPos = gap ++ l.tokenStart.bufferPos := by
  unfold tokenStart
  by_cases hindentation : l.atIndentation = true
  · rw [if_pos hindentation]
    exact ⟨[], .nil, rfl⟩
  · rw [if_neg hindentation]
    refine Loop.turns_induction (I := fun s : Lexer => ∃ gap, Blank gap ∧ l.bufferPos = gap ++ s.bufferPos) ?_
      ⟨[], .nil, rfl⟩ _
    rintro s t ⟨gap, hblank, hgap⟩ hturn
    obtain ⟨-, gap', -, hblank', hgap'⟩ := blank_blankTurn hturn
    exact ⟨gap ++ gap', hblank.append hblank', by rw [hgap, hgap', append_assoc]⟩

theorem passed_tokenStart (l : Lexer) : Passed l l.tokenStart := by
  unfold tokenStart
  by_cases hindentation : l.atIndentation = true
  · rw [if_pos hindentation]
    exact Passed.refl l
  · rw [if_neg hindentation]
    exact passed_loop consumes_blankTurn l

/-! ## Where a token stops -/

/-- The lexer went on by at least one character, and the token is not the end. -/
structure Advanced (l : Lexer) (kind : TokenKind) (stop : Lexer) : Prop where
  passed : Passed l stop
  shorter : stop.bufferPos.length < l.bufferPos.length
  notEnd : kind ≠ .endOfFile

theorem advanced_next {kind : TokenKind} (h : l.bufferPos ≠ []) (hkind : kind ≠ .endOfFile) :
    Advanced l kind l.next :=
  ⟨passed_next l, next_length_lt h, hkind⟩

theorem Advanced.go_on {kind kind' : TokenKind} {stop stop' : Lexer} (h : Advanced l kind stop)
    (hpassed : Passed stop stop') (hkind : kind' ≠ .endOfFile) : Advanced l kind' stop' :=
  ⟨h.passed.trans hpassed, Nat.lt_of_le_of_lt hpassed.suffix.length_le h.shorter, hkind⟩

theorem identifierTokenKind_ne (start stop : Lexer) : identifierTokenKind start stop ≠ .endOfFile := by
  unfold identifierTokenKind
  simp only
  split_ifs
  all_goals
    intro h
    cases h

theorem lexIdentifier_ne (start l : Lexer) : (lexIdentifier start l).1 ≠ .endOfFile := by
  unfold lexIdentifier
  simp only
  by_cases hmode : l.mode = .identifierSpecific
  · rw [if_pos hmode]
    intro h
    cases h
  · rw [if_neg hmode]
    exact identifierTokenKind_ne start _

theorem lexIdentifier_stop (start l : Lexer) : (lexIdentifier start l).2 = l.skipWhile isIdentifierChar := by
  unfold lexIdentifier
  simp only
  by_cases hmode : l.mode = .identifierSpecific
  · rw [if_pos hmode]
  · rw [if_neg hmode]

/-- A loop whose first turn is taken. -/
theorem advanced_loop (h : Consumes turn) (hturn : (turn l).isSome = true) : Advanced l .string (l.loop turn) := by
  obtain ⟨l', hl'⟩ := Option.isSome_iff_exists.mp hturn
  exact ⟨passed_loop h l, loop_length_lt h hl', by decide⟩

theorem pathTurn_isSome (hspace : isspace l.peekNextChar = false)
    (hspecial : l.peekNextChar ≠ 58 ∧ l.peekNextChar ≠ 124) (hend : l.peekNextChar ≠ -1) :
    (pathTurn l).isSome = true := by
  unfold pathTurn
  simp only
  by_cases hdollar : l.peekNextChar = 36
  · rw [if_pos hdollar]
    rfl
  · rw [if_neg hdollar, hspace, decide_eq_false hspecial.1, decide_eq_false hspecial.2, decide_eq_false hend]
    rfl

theorem variableTurn_isSome (hnewline : l.peekNextChar ≠ 10 ∧ l.peekNextChar ≠ 13) (hend : l.peekNextChar ≠ -1) :
    (variableTurn l).isSome = true := by
  unfold variableTurn
  simp only
  by_cases hdollar : l.peekNextChar = 36
  · rw [if_pos hdollar]
    rfl
  · rw [if_neg hdollar, decide_eq_false hnewline.1, decide_eq_false hnewline.2, decide_eq_false hend]
    rfl

theorem isspace_of_blankTurn (h : blankTurn l = none) (hnewline : l.peekNextChar ≠ 10 ∧ l.peekNextChar ≠ 13) :
    isspace l.peekNextChar = false := by
  unfold blankTurn at h
  simp only at h
  by_cases hdollar : l.peekNextChar = 36
  · rw [hdollar]
    rfl
  · rw [if_neg fun hboth => hdollar hboth.1] at h
    by_contra hspace
    rw [not_eq_false] at hspace
    have hblank : isNonNewlineSpace l.peekNextChar = true := by
      rw [isNonNewlineSpace, hspace, decide_eq_true hnewline.1, decide_eq_true hnewline.2]
      rfl
    rw [if_pos hblank] at h
    cases h

theorem lexToken_end (h : l.peekNextChar = -1) : l.lexToken = (.endOfFile, l) := by
  unfold lexToken
  simp only
  rw [h, if_neg (by decide), if_pos rfl]

/-- Behind leading whitespace, every token but the end has at least one character. -/
theorem advanced_lexToken (hblank : blankTurn l = none) (hend : l.peekNextChar ≠ -1) :
    Advanced l l.lexToken.1 l.lexToken.2 := by
  have hne : l.bufferPos ≠ [] := ne_nil_of_peek rfl hend
  have hnext : ∀ kind : TokenKind, kind ≠ .endOfFile → Advanced l kind l.next := fun kind hkind =>
    advanced_next hne hkind
  unfold lexToken
  simp only
  by_cases hnewline : l.peekNextChar = 10 ∨ l.peekNextChar = 13
  · rw [if_pos hnewline]
    exact hnext .newline (by decide)
  rw [if_neg hnewline, if_neg hend]
  rw [not_or] at hnewline
  by_cases hvariable : l.mode = .variableString
  · rw [if_pos hvariable]
    exact advanced_loop consumes_variableTurn (variableTurn_isSome hnewline hend)
  rw [if_neg hvariable]
  by_cases hpath : l.mode = .pathString ∧ l.peekNextChar ≠ 58 ∧ l.peekNextChar ≠ 124
  · rw [if_pos hpath]
    have hspace := isspace_of_blankTurn hblank hnewline
    exact advanced_loop consumes_pathTurn (pathTurn_isSome hspace hpath.2 hend)
  rw [if_neg hpath]
  by_cases hcolon : l.peekNextChar = 58
  · rw [if_pos hcolon]
    exact hnext .colon (by decide)
  rw [if_neg hcolon]
  by_cases hequals : l.peekNextChar = 61
  · rw [if_pos hequals]
    exact hnext .equals (by decide)
  rw [if_neg hequals]
  by_cases hcomment : l.peekNextChar = 35
  · rw [if_pos hcomment]
    show Advanced l .comment l.next.skipToEndOfLine
    exact (hnext .comment (by decide)).go_on (passed_skipWhile rfl _) (by decide)
  rw [if_neg hcomment]
  by_cases hpipe : l.peekNextChar = 124
  · rw [if_pos hpipe]
    by_cases hpipes : l.next.peekNextChar = 124
    · rw [if_pos hpipes]
      show Advanced l .pipePipe l.next.next
      exact (hnext .pipe (by decide)).go_on (passed_next _) (by decide)
    · rw [if_neg hpipes]
      exact hnext .pipe (by decide)
  rw [if_neg hpipe]
  by_cases hidentifier : isIdentifierChar l.peekNextChar = true
  · rw [if_pos hidentifier, lexIdentifier_stop]
    exact (hnext .identifier (by decide)).go_on (passed_skipWhile rfl _) (lexIdentifier_ne l l.next)
  · rw [if_neg hidentifier]
    exact hnext .unknown (by decide)

/-! ## One call -/

/-- What a call promises: a token inside the buffer, behind whitespace and newline escapes, where the lexer goes on at
    its end. -/
structure Lexed (l : Lexer) (result : Token) (l' : Lexer) : Prop where
  gap : ∃ gap, Blank gap ∧ l.bufferPos = gap ++ result.start
  inside : result.length ≤ result.start.length
  stop : l'.bufferPos = result.start.drop result.length
  ends : result.tokenKind = .endOfFile → result.start = []
  advances : result.tokenKind ≠ .endOfFile → 0 < result.length

/-- Behind the whitespace there is neither a `$` as the last byte, in another column than the first, nor the byte 255,
    and the text of the token is shorter than 2^32 bytes. -/
structure Safe (l : Lexer) : Prop where
  inside : ¬ l.tokenStart.readsPastEnd
  notEnd : l.tokenStart.bufferPos.head? ≠ some 255
  short : l.tokenStart.bufferPos.length - l.tokenStop.2.bufferPos.length < 2 ^ 32

/-- The token that a call gives. -/
def token (l : Lexer) : Token where
  start := l.tokenStart.bufferPos
  tokenKind := l.tokenStop.1
  length := (l.tokenStart.bufferPos.length - l.tokenStop.2.bufferPos.length) % 2 ^ 32
  line := l.tokenStart.lineNumber
  column := l.tokenStart.columnNumber

theorem lex_of_inside (h : ¬ l.tokenStart.readsPastEnd) : l.lex = some (l.token, l.tokenStop.2) := by
  unfold lex
  rw [if_neg h]
  rfl

theorem lex_of_readsPastEnd (h : l.tokenStart.readsPastEnd) : l.lex = none := by
  unfold lex
  rw [if_pos h]

/-- Where a token stops, relative to where it starts. -/
theorem tokenStop_cases (l : Lexer) :
    Advanced l.tokenStart l.tokenStop.1 l.tokenStop.2 ∨
      (l.tokenStart.peekNextChar = -1 ∧ l.tokenStop = (.endOfFile, l.tokenStart)) := by
  by_cases hindentation : l.atIndentation = true
  · have hstart : l.tokenStart = l := by rw [tokenStart, if_pos hindentation]
    have hstop : l.tokenStop = (.indentation, l.next.skipWhile isNonNewlineSpace) := by
      rw [tokenStop, if_pos hindentation]
    rw [hstart, hstop]
    have hne : l.bufferPos ≠ [] := by
      refine ne_nil_of_peek rfl fun hend => ?_
      rw [atIndentation, hend] at hindentation
      cases hindentation
    have hnext : Advanced l .indentation l.next := advanced_next hne (by decide)
    have hspaces : Advanced l .indentation (l.next.skipWhile isNonNewlineSpace) :=
      hnext.go_on (passed_skipWhile rfl l.next) (by decide)
    exact .inl hspaces
  · have hstart : l.tokenStart = l.loop blankTurn := by rw [tokenStart, if_neg hindentation]
    have hstop : l.tokenStop = l.tokenStart.lexToken := by rw [tokenStop, if_neg hindentation]
    rw [hstop]
    by_cases hend : l.tokenStart.peekNextChar = -1
    · exact .inr ⟨hend, lexToken_end hend⟩
    · refine .inl (advanced_lexToken ?_ hend)
      rw [hstart]
      exact turn_loop consumes_blankTurn l

theorem passed_tokenStop (l : Lexer) : Passed l.tokenStart l.tokenStop.2 := by
  rcases tokenStop_cases l with hadvanced | ⟨-, hend⟩
  · exact hadvanced.passed
  · rw [hend]
    exact Passed.refl _

/-- The rest of a text behind what a suffix of it lacks. -/
theorem drop_of_suffix (h : rest <:+ text) : text.drop (text.length - rest.length) = rest := by
  obtain ⟨front, rfl⟩ := h
  rw [length_append, Nat.add_sub_cancel, drop_left]

/-- A call keeps its promise exactly in the safe states. -/
theorem lex_iff (l : Lexer) : (∃ result l', l.lex = some (result, l') ∧ Lexed l result l') ↔ Safe l := by
  constructor
  · rintro ⟨result, l', hlex, hlexed⟩
    have hinside : ¬ l.tokenStart.readsPastEnd := by
      intro hpast
      rw [lex_of_readsPastEnd hpast] at hlex
      cases hlex
    rw [lex_of_inside hinside] at hlex
    cases hlex
    refine ⟨hinside, ?_, ?_⟩
    · intro h255
      rcases tokenStop_cases l with hadvanced | ⟨-, hend⟩
      · have hpeek : l.tokenStart.peekNextChar = -1 := peek_eq_end.mpr (.inr h255)
        have hstop : l.tokenStop = (.endOfFile, l.tokenStart) := by
          by_cases hindentation : l.atIndentation = true
          · have hstart : l.tokenStart = l := by rw [tokenStart, if_pos hindentation]
            rw [hstart] at hpeek
            rw [atIndentation, hpeek] at hindentation
            cases hindentation
          · rw [tokenStop, if_neg hindentation, lexToken_end hpeek]
        exact hadvanced.notEnd (by rw [hstop])
      · have hnil : l.tokenStart.bufferPos = [] := hlexed.ends (by show l.tokenStop.1 = _; rw [hend])
        rw [hnil] at h255
        cases h255
    · -- A longer text has a token that stops short of it.
      have hlength := congrArg List.length hlexed.stop
      have hle := (passed_tokenStop l).suffix.length_le
      have hmod := mod_lt (l.tokenStart.bufferPos.length - l.tokenStop.2.bufferPos.length) (Nat.two_pow_pos 32)
      rw [length_drop] at hlength
      change _ = l.tokenStart.bufferPos.length -
        (l.tokenStart.bufferPos.length - l.tokenStop.2.bufferPos.length) % 2 ^ 32 at hlength
      omega
  · rintro ⟨hinside, h255, hshort⟩
    refine ⟨l.token, l.tokenStop.2, lex_of_inside hinside, ?_⟩
    have hlength : l.token.length = l.tokenStart.bufferPos.length - l.tokenStop.2.bufferPos.length :=
      mod_eq_of_lt hshort
    refine ⟨blank_tokenStart l, ?_, ?_, ?_, ?_⟩
    · rw [hlength]
      exact sub_le _ _
    · rw [hlength]
      exact (drop_of_suffix (passed_tokenStop l).suffix).symm
    · intro hkind
      rcases tokenStop_cases l with hadvanced | ⟨hend, -⟩
      · exact absurd hkind hadvanced.notEnd
      · exact (peek_eq_end.mp hend).resolve_right h255
    · intro hkind
      rcases tokenStop_cases l with hadvanced | ⟨-, hend⟩
      · rw [hlength]
        exact Nat.sub_pos_of_lt hadvanced.shorter
      · exact absurd (congrArg Prod.fst hend) hkind

theorem lex_passed {result : Token} (h : l.lex = some (result, l')) : l'.bufferPos <:+ l.bufferPos := by
  have hinside : ¬ l.tokenStart.readsPastEnd := by
    intro hpast
    rw [lex_of_readsPastEnd hpast] at h
    cases h
  rw [lex_of_inside hinside] at h
  obtain ⟨-, rfl⟩ := Prod.mk.inj (Option.some.inj h)
  exact (passed_tokenStop l).suffix.trans (passed_tokenStart l).suffix

/-! ## A run -/

/-- Calls with a mode chosen before each. -/
def lexAll : List LexingMode → Lexer → Option (List Token × Lexer)
  | [], l => some ([], l)
  | mode :: modes, l =>
    match (l.setMode mode).lex with
    | none => none
    | some (result, l') =>
      match lexAll modes l' with
      | none => none
      | some (results, l'') => some (result :: results, l'')

/-- Every call of a run starts in a safe state. -/
def SafeRun : List LexingMode → Lexer → Prop
  | [], _ => True
  | mode :: modes, l =>
    Safe (l.setMode mode) ∧ ∀ result l', (l.setMode mode).lex = some (result, l') → SafeRun modes l'

/-- Tokens that lie in a buffer one behind the other, with whitespace and newline escapes between them, that are not
    empty before the end of the buffer, and end there. -/
def Covers : List UInt8 → List Token → Prop
  | _, [] => True
  | position, result :: results =>
    (∃ gap, Blank gap ∧ position = gap ++ result.start) ∧ result.length ≤ result.start.length ∧
      (result.tokenKind = .endOfFile → result.start = []) ∧ (result.tokenKind ≠ .endOfFile → 0 < result.length) ∧
      Covers (result.start.drop result.length) results

variable {modes : List LexingMode} {candidates : List (List UInt8 × TokenKind)}

theorem lexAll_of_safeRun (h : SafeRun modes l) :
    ∃ results l', lexAll modes l = some (results, l') ∧ Covers l.bufferPos results ∧
      (l.bufferPos.length < modes.length → ∃ result ∈ results, result.tokenKind = .endOfFile) := by
  induction modes generalizing l with
  | nil => exact ⟨[], l, rfl, trivial, fun hlt => absurd hlt (not_lt_zero _)⟩
  | cons mode modes ih =>
    obtain ⟨hsafe, hrest⟩ := h
    obtain ⟨result, l', hlex, hlexed⟩ := (lex_iff (l.setMode mode)).mpr hsafe
    obtain ⟨results, l'', hrun, hcovers, hend⟩ := ih (hrest result l' hlex)
    refine ⟨result :: results, l'', ?_, ?_, ?_⟩
    · rw [lexAll, hlex]
      show (match lexAll modes l' with | none => none | some (results, l'') => some (result :: results, l'')) = _
      rw [hrun]
    · rw [hlexed.stop] at hcovers
      exact ⟨hlexed.gap, hlexed.inside, hlexed.ends, hlexed.advances, hcovers⟩
    · intro hlt
      by_cases hkind : result.tokenKind = .endOfFile
      · exact ⟨result, mem_cons_self, hkind⟩
      · -- The call has consumed its token.
        have hpos := hlexed.advances hkind
        have hinside := hlexed.inside
        obtain ⟨gap, -, hgap⟩ := hlexed.gap
        have hstart := congrArg List.length hgap
        have hstop := congrArg List.length hlexed.stop
        rw [length_append] at hstart
        rw [length_drop] at hstop
        rw [length_cons] at hlt
        change l.bufferPos.length = _ at hstart
        obtain ⟨end', hmem, hend'⟩ := hend (by omega)
        exact ⟨end', mem_cons_of_mem result hmem, hend'⟩

/-- A buffer without the byte 255 that is shorter than 2^32 bytes and does not end in a `$` keeps every run safe. -/
theorem safeRun_of_plain (h255 : 255 ∉ l.bufferPos) (hlength : l.bufferPos.length < 2 ^ 32)
    (hdollar : l.bufferPos.getLast? ≠ some 36) : SafeRun modes l := by
  induction modes generalizing l with
  | nil => trivial
  | cons mode modes ih =>
    have hstart : (l.setMode mode).tokenStart.bufferPos <:+ l.bufferPos := (passed_tokenStart (l.setMode mode)).suffix
    refine ⟨⟨?_, ?_, ?_⟩, ?_⟩
    · rintro ⟨hpeek, -, htail⟩
      obtain ⟨rest, hrest⟩ := cons_of_peek 36 rfl (by decide) hpeek
      rw [hrest, tail_cons] at htail
      rw [hrest, htail] at hstart
      obtain ⟨front, hfront⟩ := hstart
      apply hdollar
      rw [← hfront, List.getLast?_concat]
    · intro hhead
      exact h255 (hstart.subset (mem_of_mem_head? hhead))
    · have := hstart.length_le
      omega
    · intro result l' hlex
      have hsuffix : l'.bufferPos <:+ (l.setMode mode).bufferPos := lex_passed hlex
      change l'.bufferPos <:+ l.bufferPos at hsuffix
      refine ih (fun hmem => h255 (hsuffix.subset hmem)) (Nat.lt_of_le_of_lt hsuffix.length_le hlength) ?_
      intro hlast
      obtain ⟨front, hfront⟩ := hsuffix
      apply hdollar
      rw [← hfront, List.getLast?_append, hlast]
      rfl

/-- In a run of safe calls the tokens cover the buffer, and the end is reached. -/
theorem lexAll_covers (buffer : List UInt8) (modes : List LexingMode) (h : SafeRun modes (Lexer.new buffer)) :
    ∃ results l', lexAll modes (Lexer.new buffer) = some (results, l') ∧ Covers buffer results ∧
      (buffer.length < modes.length → ∃ result ∈ results, result.tokenKind = .endOfFile) :=
  lexAll_of_safeRun h

/-- Two words and a newline escape between them. -/
theorem lexAll_covers_words :
    ∃ results l', lexAll (List.replicate 6 .none) (Lexer.new [97, 36, 10, 32, 98]) = some (results, l') ∧
      Covers [97, 36, 10, 32, 98] results ∧
      (5 < 6 → ∃ result ∈ results, result.tokenKind = .endOfFile) :=
  lexAll_covers [97, 36, 10, 32, 98] (List.replicate 6 .none)
    (safeRun_of_plain (by decide) (by decide) (by decide))

/-- The byte 255 ends the file where it stands, and a `$` as the last byte has the byte behind it read. -/
theorem not_lexAll_covers :
    ¬ ∀ (buffer : List UInt8) (modes : List LexingMode), ∃ results l',
      lexAll modes (Lexer.new buffer) = some (results, l') ∧ Covers buffer results ∧
        (buffer.length < modes.length → ∃ result ∈ results, result.tokenKind = .endOfFile) := by
  intro h
  obtain ⟨results, l', hlex, hcovers, -⟩ := h [255] [.none]
  have hresults : lexAll [.none] (Lexer.new [255]) =
      some ([⟨[255], .endOfFile, 0, 1, 0⟩], Lexer.new [255]) := by decide
  rw [hresults] at hlex
  obtain ⟨rfl, -⟩ := Prod.mk.inj (Option.some.inj hlex)
  exact cons_ne_nil _ _ (hcovers.2.2.1 rfl)

example : lexAll [.none, .none] (Lexer.new [97, 36]) = none := by decide

/-! ## Identifiers and keywords -/

/-- A maximal run of identifier characters, and what is behind it. -/
structure MaximalRun where
  text : List UInt8
  rest : List UInt8
  ne_nil : text ≠ []
  characters : ∀ b ∈ text, isIdentifierChar (char b) = true
  maximal : ∀ b ∈ rest.head?, isIdentifierChar (char b) = false

def keywords : List (List UInt8 × TokenKind) :=
  [(chars "rule", .kwRule), (chars "pool", .kwPool), (chars "build", .kwBuild), (chars "default", .kwDefault),
    (chars "include", .kwInclude), (chars "subninja", .kwSubninja)]

/-- The comparison with a keyword: the length, as an `unsigned`, and at most seven bytes. -/
def Resembles (text keyword : List UInt8) : Prop := text.length % 2 ^ 32 = keyword.length ∧ keyword.take 7 <+: text

/-- The kind that a text should have. -/
def SpelledAs (text : List UInt8) (kind : TokenKind) : Prop :=
  (∀ keyword ∈ keywords, kind = keyword.2 ↔ text = keyword.1) ∧
    ((∀ keyword ∈ keywords, text ≠ keyword.1) → kind = .identifier)

/-- What is left of an identifier character's properties. -/
theorem identifier_cases {c : Int} (h : isIdentifierChar c = true) :
    (97 ≤ c ∧ c ≤ 122) ∨ (65 ≤ c ∧ c ≤ 90) ∨ (48 ≤ c ∧ c ≤ 57) ∨ c = 95 ∨ c = 46 ∨ c = 45 := by
  simpa only [isIdentifierChar, ge_iff_le, Bool.or_eq_true, Bool.and_eq_true, decide_eq_true_eq, or_assoc] using h

theorem not_space_of_identifier {c : Int} (h : isIdentifierChar c = true) : isNonNewlineSpace c = false := by
  have hcases := identifier_cases h
  have hspace : isspace c = false := by
    rw [isspace, decide_eq_false (by omega), Bool.false_or]
    by_contra hcontra
    rw [not_eq_false, and_eq_true, decide_eq_true_eq, decide_eq_true_eq] at hcontra
    omega
  rw [isNonNewlineSpace, hspace]
  rfl

/-- The loop over identifier characters stops at the end of a run. -/
theorem skipWhile_run (hp : p (-1) = false) (htext : ∀ b ∈ text, p (char b) = true ∧ b ≠ 10 ∧ b ≠ 13)
    (hrest : ∀ b ∈ rest.head?, p (char b) = false) (h : l.bufferPos = text ++ rest) :
    (l.skipWhile p).bufferPos = rest := by
  induction text generalizing l with
  | nil =>
    have hnone : (if p l.peekNextChar = true then some l.next else none) = none := by
      refine if_neg ?_
      cases rest with
      | nil =>
        rw [peekNextChar, h]
        exact eq_false_iff.mp hp
      | cons b rest =>
        rw [peekNextChar_eq h]
        exact eq_false_iff.mp (hrest b rfl)
    rw [skipWhile, loop, Loop.turns_of_none hnone, h, nil_append]
  | cons b text ih =>
    have hb := htext b mem_cons_self
    have hsome : (if p l.peekNextChar = true then some l.next else none) = some l.next := by
      rw [peekNextChar_eq h, if_pos hb.1]
    rw [skipWhile, loop_of_some (consumes_skip hp) hsome]
    exact ih (fun b' hb' => htext b' (mem_cons_of_mem b hb')) (next_bufferPos h hb.2)

namespace MaximalRun

variable (run : MaximalRun)

/-- The lexer at the start of the run. -/
def lexer (line column : Nat) (mode : LexingMode) : Lexer where
  bufferPos := run.text ++ run.rest
  lineNumber := line
  columnNumber := column
  mode := mode

variable (line column : Nat) (mode : LexingMode)

theorem text_eq : ∃ b text, run.text = b :: text ∧ isIdentifierChar (char b) = true ∧
    ∀ b' ∈ text, isIdentifierChar (char b') = true ∧ b' ≠ 10 ∧ b' ≠ 13 := by
  obtain ⟨b, text, htext⟩ := exists_cons_of_ne_nil run.ne_nil
  refine ⟨b, text, htext, run.characters b (by rw [htext]; exact mem_cons_self), ?_⟩
  intro b' hb'
  have hcharacter := run.characters b' (by rw [htext]; exact mem_cons_of_mem b hb')
  refine ⟨hcharacter, ?_, ?_⟩
  · rintro rfl
    cases hcharacter
  · rintro rfl
    cases hcharacter

theorem peek_lexer : isIdentifierChar (run.lexer line column mode).peekNextChar = true := by
  obtain ⟨b, text, htext, hb, -⟩ := run.text_eq
  have hcons : (run.lexer line column mode).bufferPos = b :: (text ++ run.rest) := by
    show run.text ++ run.rest = _
    rw [htext, cons_append]
  rw [peekNextChar_eq hcons]
  exact hb

/-- The run is the token. -/
theorem tokenStart_lexer : (run.lexer line column mode).tokenStart = run.lexer line column mode := by
  have hpeek := run.peek_lexer line column mode
  have hcases := identifier_cases hpeek
  have hspace := not_space_of_identifier hpeek
  have hindentation : (run.lexer line column mode).atIndentation = false := by rw [atIndentation, hspace]; rfl
  have hturn : blankTurn (run.lexer line column mode) = none := by
    unfold blankTurn
    simp only
    rw [if_neg (by omega), hspace]
    rfl
  rw [tokenStart, hindentation, loop, Loop.turns_of_none hturn]
  rfl

theorem stop_lexer : ((run.lexer line column mode).next.skipWhile isIdentifierChar).bufferPos = run.rest := by
  obtain ⟨b, text, htext, hb, hcharacters⟩ := run.text_eq
  have hcons : (run.lexer line column mode).bufferPos = b :: (text ++ run.rest) := by
    show run.text ++ run.rest = _
    rw [htext, cons_append]
  have hline : b ≠ 10 ∧ b ≠ 13 := by
    constructor
    · rintro rfl
      cases hb
    · rintro rfl
      cases hb
  exact skipWhile_run rfl hcharacters run.maximal (next_bufferPos hcons hline)

theorem tokenStop_lexer (h : mode = .none ∨ mode = .identifierSpecific) :
    (run.lexer line column mode).tokenStop =
      lexIdentifier (run.lexer line column mode) (run.lexer line column mode).next := by
  have hpeek := run.peek_lexer line column mode
  have hcases := identifier_cases hpeek
  have hindentation : (run.lexer line column mode).atIndentation = false := by
    rw [atIndentation, not_space_of_identifier hpeek]
    rfl
  have hmode : (run.lexer line column mode).mode = mode := rfl
  have hmodes : mode ≠ .variableString ∧ mode ≠ .pathString := by
    rcases h with rfl | rfl
    · exact ⟨by decide, by decide⟩
    · exact ⟨by decide, by decide⟩
  rw [tokenStop, hindentation, if_neg Bool.false_ne_true, tokenStart_lexer]
  unfold lexToken
  simp only
  rw [if_neg (by omega), if_neg (by omega), hmode]
  rw [if_neg hmodes.1, if_neg fun hpath => hmodes.2 hpath.1]
  rw [if_neg (by omega), if_neg (by omega), if_neg (by omega), if_neg (by omega), if_pos hpeek]

end MaximalRun

instance (text keyword : List UInt8) : Decidable (Resembles text keyword) := inferInstanceAs (Decidable (_ ∧ _))

/-- The first keyword of a list that a text resembles. -/
def kindOf (text : List UInt8) : List (List UInt8 × TokenKind) → TokenKind
  | [] => .identifier
  | keyword :: rest => if Resembles text keyword.1 then keyword.2 else kindOf text rest

/-- Fewer bytes than the text has are compared. -/
theorem compare_iff (text rest keyword : List UInt8) :
    (text.length % 2 ^ 32 = keyword.length ∧ (text ++ rest).take (keyword.take 7).length = keyword.take 7) ↔
      Resembles text keyword := by
  refine and_congr_right fun hlength => ?_
  have hle : (keyword.take 7).length ≤ text.length := by
    have hmod := mod_le text.length (2 ^ 32)
    have htake := length_take_le 7 keyword
    have htake' := length_take_le' 7 keyword
    omega
  rw [take_append_of_le_length hle, prefix_iff_eq_take]
  exact eq_comm

theorem identifierTokenKind_eq {start stop : Lexer} (h : start.bufferPos = text ++ stop.bufferPos) :
    identifierTokenKind start stop = kindOf text keywords := by
  have hlength : start.bufferPos.length - stop.bufferPos.length = text.length := by
    rw [h, length_append, Nat.add_sub_cancel]
  unfold identifierTokenKind
  simp only
  rw [hlength, h]
  have hrule : (text.length % 2 ^ 32 = 4 ∧ (text ++ stop.bufferPos).take 4 = chars "rule") ↔
      Resembles text (chars "rule") := compare_iff text stop.bufferPos (chars "rule")
  have hpool : (text.length % 2 ^ 32 = 4 ∧ (text ++ stop.bufferPos).take 4 = chars "pool") ↔
      Resembles text (chars "pool") := compare_iff text stop.bufferPos (chars "pool")
  have hbuild : (text.length % 2 ^ 32 = 5 ∧ (text ++ stop.bufferPos).take 5 = chars "build") ↔
      Resembles text (chars "build") := compare_iff text stop.bufferPos (chars "build")
  have hdefault : (text.length % 2 ^ 32 = 7 ∧ (text ++ stop.bufferPos).take 7 = chars "default") ↔
      Resembles text (chars "default") := compare_iff text stop.bufferPos (chars "default")
  have hinclude : (text.length % 2 ^ 32 = 7 ∧ (text ++ stop.bufferPos).take 7 = chars "include") ↔
      Resembles text (chars "include") := compare_iff text stop.bufferPos (chars "include")
  have hsubninja : (text.length % 2 ^ 32 = 8 ∧ (text ++ stop.bufferPos).take 7 = (chars "subninja").take 7) ↔
      Resembles text (chars "subninja") := compare_iff text stop.bufferPos (chars "subninja")
  rw [if_congr hrule rfl rfl, if_congr hpool rfl rfl, if_congr hbuild rfl rfl, if_congr hdefault rfl rfl,
    if_congr hinclude rfl rfl, if_congr hsubninja rfl rfl]
  rfl

theorem kindOf_of_mem (hmem : keyword ∈ candidates) (h : Resembles text keyword.1)
    (hunique : ∀ other ∈ candidates, Resembles text other.1 → other = keyword) :
    kindOf text candidates = keyword.2 := by
  induction candidates with
  | nil => cases hmem
  | cons first rest ih =>
    rw [kindOf]
    by_cases hfirst : Resembles text first.1
    · rw [if_pos hfirst, hunique first mem_cons_self hfirst]
    · rw [if_neg hfirst]
      have hrest : keyword ∈ rest := by
        rcases mem_cons.mp hmem with rfl | hrest
        · exact absurd h hfirst
        · exact hrest
      exact ih hrest fun other hother => hunique other (mem_cons_of_mem first hother)

theorem kindOf_of_not (h : ∀ keyword ∈ candidates, ¬ Resembles text keyword.1) :
    kindOf text candidates = .identifier := by
  induction candidates with
  | nil => rfl
  | cons first rest ih =>
    rw [kindOf, if_neg (h first mem_cons_self)]
    exact ih fun keyword hkeyword => h keyword (mem_cons_of_mem first hkeyword)

/-- A text resembles one keyword at most. -/
theorem resembles_unique {other : List UInt8 × TokenKind} (hkeyword : keyword ∈ keywords) (hother : other ∈ keywords)
    (h : Resembles text keyword.1) (h' : Resembles text other.1) : other = keyword := by
  have hlength : keyword.1.length = other.1.length := h.1.symm.trans h'.1
  have htake : keyword.1.take 7 = other.1.take 7 := by
    refine (prefix_of_prefix_length_le h.2 h'.2 ?_).eq_of_length ?_
    · rw [length_take, length_take, hlength]
    · rw [length_take, length_take, hlength]
  have hdistinct : ∀ keyword ∈ keywords, ∀ other ∈ keywords, keyword.1.length = other.1.length →
      keyword.1.take 7 = other.1.take 7 → other = keyword := by decide
  exact hdistinct keyword hkeyword other hother hlength htake

section

variable (h : keyword ∈ keywords)
include h

theorem resembles_self :
    Resembles keyword.1 keyword.1 := by
  have hshort : ∀ keyword ∈ keywords, keyword.1.length < 2 ^ 32 := by decide
  exact ⟨mod_eq_of_lt (hshort keyword h), take_prefix 7 keyword.1⟩

theorem keyword_ne_identifier :
    keyword.2 ≠ .identifier := by
  have hne : ∀ keyword ∈ keywords, keyword.2 ≠ .identifier := by decide
  exact hne keyword h

/-- The kind of a run is a keyword's exactly if the run resembles it. -/
theorem kindOf_iff :
    kindOf text keywords = keyword.2 ↔ Resembles text keyword.1 := by
  constructor
  · intro hkind
    by_contra hnot
    by_cases hany : ∃ other ∈ keywords, Resembles text other.1
    · obtain ⟨other, hother, hresembles⟩ := hany
      have hkind' := kindOf_of_mem hother hresembles
        fun third hthird hthird' => resembles_unique hother hthird hresembles hthird'
      have hinjective : ∀ keyword ∈ keywords, ∀ other ∈ keywords, other.2 = keyword.2 → other = keyword := by decide
      obtain rfl := hinjective keyword h other hother (hkind'.symm.trans hkind)
      exact hnot hresembles
    · rw [kindOf_of_not fun other hother hresembles => hany ⟨other, hother, hresembles⟩] at hkind
      exact keyword_ne_identifier h hkind.symm
  · intro hresembles
    exact kindOf_of_mem h hresembles fun other hother hother' => resembles_unique h hother hresembles hother'

end

theorem spelledAs_kindOf_iff (text : List UInt8) :
    SpelledAs text (kindOf text keywords) ↔ ∀ keyword ∈ keywords, Resembles text keyword.1 → text = keyword.1 := by
  constructor
  · rintro ⟨hkeywords, -⟩ keyword hkeyword hresembles
    exact (hkeywords keyword hkeyword).mp ((kindOf_iff hkeyword).mpr hresembles)
  · intro h
    refine ⟨?_, ?_⟩
    · intro keyword hkeyword
      rw [kindOf_iff hkeyword]
      constructor
      · exact h keyword hkeyword
      · rintro rfl
        exact resembles_self hkeyword
    · intro hnone
      exact kindOf_of_not fun keyword hkeyword hresembles =>
        hnone keyword hkeyword (h keyword hkeyword hresembles)

theorem MaximalRun.lex_lexer (run : MaximalRun) (line column : Nat) {mode : LexingMode}
    (h : mode = .none ∨ mode = .identifierSpecific) :
    ∃ result stop, (run.lexer line column mode).lex = some (result, stop) ∧
      result.start = run.text ++ run.rest ∧ stop.bufferPos = run.rest ∧
      result.tokenKind = if mode = .identifierSpecific then .identifier else kindOf run.text keywords := by
  have hpeek := run.peek_lexer line column mode
  have hcases := identifier_cases hpeek
  have hstart := run.tokenStart_lexer line column mode
  have hinside : ¬ (run.lexer line column mode).tokenStart.readsPastEnd := by
    rw [hstart]
    rintro ⟨hdollar, -⟩
    omega
  have hstop := run.tokenStop_lexer line column mode h
  have hrest := run.stop_lexer line column mode
  have hmode : (run.lexer line column mode).next.mode = mode := (passed_next (run.lexer line column mode)).mode
  refine ⟨_, _, lex_of_inside hinside, ?_, ?_, ?_⟩
  · show (run.lexer line column mode).tokenStart.bufferPos = _
    rw [hstart]
    rfl
  · rw [hstop, lexIdentifier_stop]
    exact hrest
  · show (run.lexer line column mode).tokenStop.1 = _
    rw [hstop]
    unfold lexIdentifier
    simp only
    rw [hmode]
    by_cases hspecific : mode = .identifierSpecific
    · rw [if_pos hspecific, if_pos hspecific]
    · rw [if_neg hspecific, if_neg hspecific]
      refine identifierTokenKind_eq ?_
      rw [hrest]
      rfl

/-- A run is a keyword exactly if it is spelled like it, unless it only resembles one; where keywords are not looked
    for it is an identifier. -/
theorem lex_keyword_iff (run : MaximalRun) (line column : Nat) :
    ((∃ result stop, (run.lexer line column .none).lex = some (result, stop) ∧
        result.start = run.text ++ run.rest ∧ stop.bufferPos = run.rest ∧ SpelledAs run.text result.tokenKind) ↔
      ∀ keyword ∈ keywords, Resembles run.text keyword.1 → run.text = keyword.1) ∧
    ∃ result stop, (run.lexer line column .identifierSpecific).lex = some (result, stop) ∧
      result.start = run.text ++ run.rest ∧ stop.bufferPos = run.rest ∧ result.tokenKind = .identifier := by
  constructor
  · obtain ⟨result, stop, hlex, hstart, hstop, hkind⟩ := run.lex_lexer line column (.inl rfl)
    rw [if_neg (by decide)] at hkind
    rw [← spelledAs_kindOf_iff, ← hkind]
    constructor
    · rintro ⟨result', stop', hlex', -, -, hspelled⟩
      rw [hlex] at hlex'
      obtain ⟨rfl, -⟩ := Prod.mk.inj (Option.some.inj hlex')
      exact hspelled
    · intro hspelled
      exact ⟨result, stop, hlex, hstart, hstop, hspelled⟩
  · obtain ⟨result, stop, hlex, hstart, hstop, hkind⟩ := run.lex_lexer line column (.inr rfl)
    rw [if_pos rfl] at hkind
    exact ⟨result, stop, hlex, hstart, hstop, hkind⟩

/-- A word of eight characters that differs from `subninja` in the last one. -/
def subninjx : MaximalRun where
  text := chars "subninjx"
  rest := []
  ne_nil := by decide
  characters := List.all_eq_true.mp (by decide)
  maximal := by
    intro b hb
    cases hb

/-- That word is lexed as a keyword. -/
theorem subninjx_not_spelled :
    ¬ ∃ result stop, (subninjx.lexer 1 0 .none).lex = some (result, stop) ∧
      result.start = subninjx.text ++ subninjx.rest ∧ stop.bufferPos = subninjx.rest ∧
      SpelledAs subninjx.text result.tokenKind := by
  rintro ⟨result, stop, hlex, -, -, hspelled, -⟩
  have hsubninja : (subninjx.lexer 1 0 .none).lex =
      some (⟨chars "subninjx", .kwSubninja, 8, 1, 0⟩, ⟨[], 1, 8, .none⟩) := by decide
  rw [hsubninja] at hlex
  obtain ⟨rfl, -⟩ := Prod.mk.inj (Option.some.inj hlex)
  have htext := (hspelled (chars "subninja", .kwSubninja) (by decide)).mp rfl
  exact absurd htext (by decide)

end Lexer

end Ninja

end Builra
