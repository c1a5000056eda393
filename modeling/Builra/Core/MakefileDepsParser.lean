import Builra.Lib.Loop
import Mathlib.Data.List.Infix

namespace Builra

open List
open Bool hiding not_or or_assoc

/-!
# `Core.MakefileDepsParser` — dependencies in Makefile syntax

The cursor is what is left of the data. The parser's loop over rules and its loop over the words of a rule are one loop
here, with a flag for the inner one; a turn that reads outside the data ends it without actions.
-/

namespace MakefileDepsParser

inductive Action where
  | error (message : String) (position : Nat)
  | actOnRuleStart (name unescapedWord : List UInt8)
  | actOnRuleDependency (dependency unescapedWord : List UInt8)
  | actOnRuleEnd
deriving DecidableEq

def isWordChar (c : UInt8) : Bool := !(c = 0 || c = 9 || c = 13 || c = 10 || c = 32 || c = 36 || c = 58)

/-- `skipWhitespaceAndComments`, from a position behind a `#` and newlines, if `comment`, which newlines only continue. -/
def skipBlanks (comment : Bool) : List UInt8 → List UInt8
  | [] => []
  | c :: rest =>
    if comment ∧ c = 10 then skipBlanks true rest
    else if c = 35 then skipBlanks true rest
    else if c = 32 ∨ c = 9 ∨ c = 10 ∨ c = 13 then skipBlanks false rest
    else c :: rest

def skipWhitespaceAndComments : List UInt8 → List UInt8 := skipBlanks false

def skipNonNewlineWhitespace : List UInt8 → List UInt8
  | [] => []
  | [c] => if c = 32 ∨ c = 9 ∨ c = 13 then [] else [c]
  | [c, c'] =>
    if c = 32 ∨ c = 9 ∨ c = 13 then skipNonNewlineWhitespace [c']
    else if c = 92 ∧ c' = 10 then []
    else [c, c']
  | c :: c' :: c'' :: rest =>
    if c = 32 ∨ c = 9 ∨ c = 13 then skipNonNewlineWhitespace (c' :: c'' :: rest)
    else if c = 92 ∧ c' = 10 then skipNonNewlineWhitespace (c'' :: rest)
    else if c = 92 ∧ c' = 13 ∧ c'' = 10 then skipNonNewlineWhitespace rest
    else c :: c' :: c'' :: rest

def skipToEndOfLine : List UInt8 → List UInt8
  | [] => []
  | c :: rest => if c = 10 then rest else skipToEndOfLine rest

/-- What an escaped character stands for. -/
def unescape (c : UInt8) : List UInt8 := if c = 32 ∨ c = 35 ∨ c = 92 then [c] else [92, c]

/-- `lexWord`: what it adds to the word, and where it stops; none if it reads outside the data. -/
def lexWord : List UInt8 → Option (List UInt8 × List UInt8)
  | [] => some ([], [])
  | [c] =>
    -- The character that a backslash escapes is read unseen.
    if c = 92 then none
    else if isWordChar c then some ([c], [])
    else some ([], [c])
  | c :: c' :: rest =>
    if c = 92 then
      if c' = 10 then some ([], c :: c' :: rest)
      else (lexWord rest).map fun (word, stop) => (unescape c' ++ word, stop)
    else if c = 36 ∧ c' = 36 then (lexWord rest).map fun (word, stop) => (c :: word, stop)
    else if isWordChar c then (lexWord (c' :: rest)).map fun (word, stop) => (c :: word, stop)
    else some ([], c :: c' :: rest)

/-- Colons inside a dependency, and the rest of the word behind each of them. -/
def colonsLoop : Nat → List UInt8 → Option (List UInt8 × List UInt8)
  | 0, cur => some ([], cur)
  | fuel + 1, cur =>
    if cur.head? = some 58 then
      match lexWord cur.tail with
      | none => none
      | some (word, stop) => (colonsLoop fuel stop).map fun (more, stop) => (58 :: (word ++ more), stop)
    else some ([], cur)

/-- Each turn of the loop consumes a colon. -/
def lexColons (cur : List UInt8) : Option (List UInt8 × List UInt8) := colonsLoop cur.length cur

structure State where
  cur : List UInt8
  /-- In the loop over dependency words. -/
  inRule : Bool
  actions : List Action
deriving DecidableEq

/-- `cur - data.data()` -/
def position (data cur : List UInt8) : Nat := data.length - cur.length

/-- The text between two positions. -/
def slice (start stop : List UInt8) : List UInt8 := start.take (start.length - stop.length)

section

variable (data : List UInt8) (ignoreSubsequentOutputs : Bool)

/-- The loop over rules, up to the colon. -/
def ruleTurn (s : State) : Option (List Action) ⊕ State :=
  let cur := skipWhitespaceAndComments s.cur
  if cur = [] then .inl (some s.actions)
  else
    match lexWord cur with
    | none => .inl none
    | some (unescapedWord, stop) =>
      if stop = cur then
        .inr { cur := skipToEndOfLine cur
               inRule := false
               actions := s.actions ++ [.error "unexpected character in file" (position data cur)] }
      else
        let start := .actOnRuleStart (slice cur stop) unescapedWord
        let colon := skipNonNewlineWhitespace stop
        if colon.head? = some 58 then .inr { cur := colon.tail, inRule := true, actions := s.actions ++ [start] }
        else
          .inr { cur := skipToEndOfLine colon
                 inRule := false
                 actions := s.actions ++
                   [start, .error "missing ':' following rule" (position data colon), .actOnRuleEnd] }

/-- The loop over the dependency words of a rule, and the end of the rule. -/
def dependencyTurn (s : State) : Option (List Action) ⊕ State :=
  let cur := skipNonNewlineWhitespace s.cur
  if cur = [] ∨ cur.head? = some 10 then
    let actions := s.actions ++ [.actOnRuleEnd]
    if ignoreSubsequentOutputs then .inl (some actions) else .inr { cur, inRule := false, actions }
  else
    match lexWord cur with
    | none => .inl none
    | some (unescapedWord, stop) =>
      if stop = cur then
        .inr { cur := skipToEndOfLine cur
               inRule := true
               actions := s.actions ++ [.error "unexpected character in prerequisites" (position data cur)] }
      else
        match lexColons stop with
        | none => .inl none
        | some (more, stop) =>
          .inr { cur := stop
                 inRule := true
                 actions := s.actions ++ [.actOnRuleDependency (slice cur stop) (unescapedWord ++ more)] }

def turn (s : State) : Option (List Action) ⊕ State :=
  if s.inRule then dependencyTurn data ignoreSubsequentOutputs s else ruleTurn data s

/-- Before the first rule. -/
def State.init : State where
  cur := data
  inRule := false
  actions := []

/-- `parse` ends with these actions, or with none of them because it reads outside the data. -/
def Parses (result : Option (List Action)) : Prop :=
  Loop.Ends (turn data ignoreSubsequentOutputs) (State.init data) result

end

/-! ## Words -/

/-- What the lexer goes through as text of a word, and the word that it makes of it. -/
inductive WordText : List UInt8 → List UInt8 → Prop
  | nil : WordText [] []
  | escape {c : UInt8} {text word : List UInt8} (hc : c ≠ 10) (h : WordText text word) :
      WordText (92 :: c :: text) (unescape c ++ word)
  | dollar {text word : List UInt8} (h : WordText text word) : WordText (36 :: 36 :: text) (36 :: word)
  | char {c : UInt8} {text word : List UInt8} (hc : isWordChar c = true) (hescape : c ≠ 92)
      (h : WordText text word) : WordText (c :: text) (c :: word)

/-- No more of a word follows: the end, a line continuation, or a character that is not part of words. -/
inductive WordEnd : List UInt8 → Prop
  | nil : WordEnd []
  | continuation (rest : List UInt8) : WordEnd (92 :: 10 :: rest)
  | char {c : UInt8} {rest : List UInt8} (hc : isWordChar c = false) (hdollar : c = 36 → rest.head? ≠ some 36) :
      WordEnd (c :: rest)

variable {c : UInt8} {cur rest word : List UInt8}

theorem ne_dollar_of_isWordChar (h : isWordChar c = true) : c ≠ 36 := by
  rintro rfl
  cases h

theorem ne_backslash_of_not_isWordChar (h : isWordChar c = false) : c ≠ 92 := by
  rintro rfl
  cases h

theorem lexWord_escape (hc : c ≠ 10) (rest : List UInt8) :
    lexWord (92 :: c :: rest) = (lexWord rest).map fun (word, stop) => (unescape c ++ word, stop) := by
  rw [lexWord, if_pos rfl, if_neg hc]

theorem lexWord_dollar (rest : List UInt8) :
    lexWord (36 :: 36 :: rest) = (lexWord rest).map fun (word, stop) => (36 :: word, stop) := by
  rw [lexWord, if_neg (by decide), if_pos ⟨rfl, rfl⟩]

theorem lexWord_char (hc : isWordChar c = true) (hescape : c ≠ 92) (rest : List UInt8) :
    lexWord (c :: rest) = (lexWord rest).map fun (word, stop) => (c :: word, stop) := by
  cases rest with
  | nil =>
    show lexWord [c] = some ([c], [])
    rw [lexWord, if_neg hescape, if_pos hc]
  | cons c' rest => rw [lexWord, if_neg hescape, if_neg fun h => ne_dollar_of_isWordChar hc h.1, if_pos hc]

theorem lexWord_end (h : WordEnd cur) : lexWord cur = some ([], cur) := by
  cases h with
  | nil => rfl
  | continuation rest => rw [lexWord, if_pos rfl, if_pos rfl]
  | @char c rest hc hdollar =>
    have hescape := ne_backslash_of_not_isWordChar hc
    have hnot := eq_false_iff.mp hc
    cases rest with
    | nil => rw [lexWord, if_neg hescape, if_neg hnot]
    | cons c' rest =>
      rw [lexWord, if_neg hescape, if_neg ?_, if_neg hnot]
      rintro ⟨hc, rfl⟩
      exact hdollar hc rfl

/-- Induction on the data as the lexer reads a word in them. -/
theorem word_induction {P : List UInt8 → Prop} (outside : P [92]) (stop : ∀ cur, WordEnd cur → P cur)
    (escape : ∀ c rest, c ≠ 10 → P rest → P (92 :: c :: rest)) (dollar : ∀ rest, P rest → P (36 :: 36 :: rest))
    (char : ∀ c rest, isWordChar c = true → c ≠ 92 → P rest → P (c :: rest)) (cur : List UInt8) : P cur := by
  induction hlength : cur.length using Nat.strongRecOn generalizing cur with
  | ind n ih =>
    subst hlength
    cases cur with
    | nil => exact stop [] .nil
    | cons c rest =>
      by_cases hescape : c = 92
      · subst hescape
        cases rest with
        | nil => exact outside
        | cons c' rest =>
          by_cases hline : c' = 10
          · subst hline
            exact stop _ (.continuation rest)
          · refine escape c' rest hline (ih rest.length ?_ rest rfl)
            rw [length_cons, length_cons]
            omega
      · cases hc : isWordChar c with
        | true => exact char c rest hc hescape (ih rest.length (Nat.lt_succ_self _) rest rfl)
        | false =>
          by_cases hdollar : c = 36 ∧ rest.head? = some 36
          · obtain ⟨rfl, hhead⟩ := hdollar
            obtain ⟨rest', rfl⟩ := head?_eq_some_iff.mp hhead
            refine dollar rest' (ih rest'.length ?_ rest' rfl)
            rw [length_cons, length_cons]
            omega
          · exact stop _ (.char hc fun hc' hhead => hdollar ⟨hc', hhead⟩)

/-- A word is read up to its end. -/
theorem lexWord_append {text : List UInt8} (h : WordText text word) (hend : WordEnd rest) :
    lexWord (text ++ rest) = some (word, rest) := by
  induction h with
  | nil => exact lexWord_end hend
  | escape hc _ ih => rw [cons_append, cons_append, lexWord_escape hc, ih]; rfl
  | dollar _ ih => rw [cons_append, cons_append, lexWord_dollar, ih]; rfl
  | char hc hescape _ ih => rw [cons_append, lexWord_char hc hescape, ih]; rfl

/-- A word that runs into a backslash as the last byte. -/
def RunsOut (cur : List UInt8) : Prop := ∃ text word, WordText text word ∧ cur = text ++ [92]

theorem lexWord_of_runsOut (h : RunsOut cur) : lexWord cur = none := by
  obtain ⟨text, word, htext, rfl⟩ := h
  induction htext with
  | nil => rfl
  | escape hc _ ih => rw [cons_append, cons_append, lexWord_escape hc, ih]; rfl
  | dollar _ ih => rw [cons_append, cons_append, lexWord_dollar, ih]; rfl
  | char hc hescape _ ih => rw [cons_append, lexWord_char hc hescape, ih]; rfl

/-- The lexer stops at the end of a word, or runs out of the data. -/
theorem lexWord_cases (cur : List UInt8) :
    RunsOut cur ∨ ∃ text word rest, WordText text word ∧ WordEnd rest ∧ cur = text ++ rest := by
  induction cur using word_induction with
  | outside => exact .inl ⟨[], [], .nil, rfl⟩
  | stop cur hend => exact .inr ⟨[], [], cur, .nil, hend, rfl⟩
  | escape c rest hc ih =>
    rcases ih with ⟨text, word, htext, rfl⟩ | ⟨text, word, stop, htext, hend, rfl⟩
    · exact .inl ⟨_, _, .escape hc htext, rfl⟩
    · exact .inr ⟨_, _, stop, .escape hc htext, hend, rfl⟩
  | dollar rest ih =>
    rcases ih with ⟨text, word, htext, rfl⟩ | ⟨text, word, stop, htext, hend, rfl⟩
    · exact .inl ⟨_, _, .dollar htext, rfl⟩
    · exact .inr ⟨_, _, stop, .dollar htext, hend, rfl⟩
  | char c rest hc hescape ih =>
    rcases ih with ⟨text, word, htext, rfl⟩ | ⟨text, word, stop, htext, hend, rfl⟩
    · exact .inl ⟨_, _, .char hc hescape htext, rfl⟩
    · exact .inr ⟨_, _, stop, .char hc hescape htext, hend, rfl⟩

theorem eq_of_lexWord {stop : List UInt8} (h : lexWord cur = some (word, stop)) :
    ∃ text, WordText text word ∧ WordEnd stop ∧ cur = text ++ stop := by
  rcases lexWord_cases cur with hout | ⟨text, word', rest, htext, hend, rfl⟩
  · rw [lexWord_of_runsOut hout] at h
    cases h
  · rw [lexWord_append htext hend] at h
    cases h
    exact ⟨text, htext, hend, rfl⟩

theorem lexWord_suffix {stop : List UInt8} (h : lexWord cur = some (word, stop)) : stop <:+ cur := by
  obtain ⟨text, -, -, rfl⟩ := eq_of_lexWord h
  exact suffix_append text stop

/-! ## Colons inside words -/

/-- Colons, and the texts behind them. -/
inductive ColonsText : List UInt8 → List UInt8 → Prop
  | nil : ColonsText [] []
  | colon {text word text' more : List UInt8} (h : WordText text word) (h' : ColonsText text' more) :
      ColonsText (58 :: (text ++ text')) (58 :: (word ++ more))

/-- Words between colons, the last of which runs into a backslash as the last byte. -/
inductive ColonsRunOut : List UInt8 → Prop
  | last {cur : List UInt8} (h : RunsOut cur) : ColonsRunOut (58 :: cur)
  | colon {text word cur : List UInt8} (h : WordText text word) (h' : ColonsRunOut cur) :
      ColonsRunOut (58 :: (text ++ cur))

theorem wordEnd_colon (rest : List UInt8) : WordEnd (58 :: rest) := .char rfl fun h => nomatch h

theorem ColonsRunOut.wordEnd (h : ColonsRunOut cur) : WordEnd cur := by
  cases h with
  | last h | colon h h' => exact wordEnd_colon _

/-- Enough turns for every colon. -/
theorem colonsLoop_eq {fuel fuel' : Nat} (h : cur.length ≤ fuel) (h' : cur.length ≤ fuel') :
    colonsLoop fuel cur = colonsLoop fuel' cur := by
  induction fuel generalizing fuel' cur with
  | zero =>
    obtain rfl := length_eq_zero_iff.mp (Nat.le_zero.mp h)
    cases fuel' with
    | zero => rfl
    | succ fuel' => rw [colonsLoop, colonsLoop, if_neg (by decide)]
  | succ fuel ih =>
    by_cases hhead : cur.head? = some 58
    · obtain ⟨rest, rfl⟩ := head?_eq_some_iff.mp hhead
      rw [length_cons] at h h'
      obtain ⟨fuel', rfl⟩ : ∃ k, fuel' = k + 1 := ⟨fuel' - 1, by omega⟩
      rw [colonsLoop, colonsLoop, if_pos hhead, if_pos hhead, tail_cons]
      cases hword : lexWord rest with
      | none => rfl
      | some found =>
        obtain ⟨word, stop⟩ := found
        have hle := (lexWord_suffix hword).length_le
        have hstable : colonsLoop fuel stop = colonsLoop fuel' stop := ih (by omega) (by omega)
        show (colonsLoop fuel stop).map _ = (colonsLoop fuel' stop).map _
        rw [hstable]
    · cases fuel' with
      | zero => rw [colonsLoop, colonsLoop, if_neg hhead]
      | succ fuel' => rw [colonsLoop, colonsLoop, if_neg hhead, if_neg hhead]

theorem lexColons_end (h : cur.head? ≠ some 58) : lexColons cur = some ([], cur) := by
  unfold lexColons
  cases cur with
  | nil => rfl
  | cons c rest => rw [length_cons, colonsLoop, if_neg h]

theorem lexColons_colon (rest : List UInt8) : lexColons (58 :: rest) =
    (lexWord rest).bind fun (word, stop) => (lexColons stop).map fun (more, stop) => (58 :: (word ++ more), stop) := by
  rw [lexColons, length_cons, colonsLoop, if_pos head?_cons, tail_cons]
  cases hword : lexWord rest with
  | none => rfl
  | some found =>
    obtain ⟨word, stop⟩ := found
    have hle := (lexWord_suffix hword).length_le
    show (colonsLoop rest.length stop).map _ = (colonsLoop stop.length stop).map _
    rw [colonsLoop_eq hle (Nat.le_refl _)]

theorem lexColons_append {text more : List UInt8} (h : ColonsText text more) (hend : WordEnd rest)
    (hcolon : rest.head? ≠ some 58) : lexColons (text ++ rest) = some (more, rest) := by
  induction h with
  | nil => exact lexColons_end hcolon
  | @colon text word text' more hword hcolons ih =>
    have hend' : WordEnd (text' ++ rest) := by
      cases hcolons with
      | nil => exact hend
      | colon h h' => exact wordEnd_colon _
    rw [cons_append, lexColons_colon, append_assoc, lexWord_append hword hend']
    show (lexColons (text' ++ rest)).map _ = _
    rw [ih]
    rfl

/-- The loop over colons stops behind the last one, or runs out of the data. -/
theorem lexColons_cases (h : WordEnd cur) : (lexColons cur = none ∧ ColonsRunOut cur) ∨
    ∃ text more rest, ColonsText text more ∧ WordEnd rest ∧ rest.head? ≠ some 58 ∧ cur = text ++ rest := by
  induction hlength : cur.length using Nat.strongRecOn generalizing cur with
  | ind n ih =>
    subst hlength
    by_cases hhead : cur.head? = some 58
    · obtain ⟨rest, rfl⟩ := head?_eq_some_iff.mp hhead
      rw [lexColons_colon]
      rcases lexWord_cases rest with hout | ⟨text, word, stop, htext, hend, rfl⟩
      · rw [lexWord_of_runsOut hout]
        exact .inl ⟨rfl, .last hout⟩
      · rw [lexWord_append htext hend]
        rcases ih stop.length (by rw [length_cons, length_append]; omega) hend rfl with
          ⟨hnone, hout⟩ | ⟨text', more, rest, hcolons, hend', hcolon, rfl⟩
        · refine .inl ⟨?_, .colon htext hout⟩
          show (lexColons stop).map _ = none
          rw [hnone]
          rfl
        · refine .inr ⟨_, _, rest, .colon htext hcolons, hend', hcolon, ?_⟩
          rw [cons_append, append_assoc]
    · exact .inr ⟨[], [], cur, .nil, h, hhead, rfl⟩

theorem lexColons_of_runOut (h : ColonsRunOut cur) : lexColons cur = none := by
  induction h with
  | last hout =>
    rw [lexColons_colon, lexWord_of_runsOut hout]
    rfl
  | colon htext hout ih =>
    rw [lexColons_colon, lexWord_append htext hout.wordEnd]
    show (lexColons _).map _ = none
    rw [ih]
    rfl

/-! ## Blanks -/

theorem skipBlanks_suffix (comment : Bool) (cur : List UInt8) : skipBlanks comment cur <:+ cur := by
  induction cur generalizing comment with
  | nil => exact suffix_rfl
  | cons c rest ih =>
    rw [skipBlanks]
    split_ifs
    · exact (ih true).trans (suffix_cons c rest)
    · exact (ih true).trans (suffix_cons c rest)
    · exact (ih false).trans (suffix_cons c rest)
    · exact suffix_rfl

/-- What skipping between rules goes over: whitespace and the signs of comments, but not their texts. -/
def isBlank (c : UInt8) : Bool := c = 35 || c = 32 || c = 9 || c = 10 || c = 13

theorem skipBlanks_eq (comment : Bool) (cur : List UInt8) : skipBlanks comment cur = cur.dropWhile isBlank := by
  induction cur generalizing comment with
  | nil => rfl
  | cons c rest ih =>
    rw [skipBlanks, ih true, ih false]
    by_cases hblank : isBlank c = true
    · rw [dropWhile_cons_of_pos hblank]
      simp only [isBlank, Bool.or_eq_true, decide_eq_true_eq, or_assoc] at hblank
      split_ifs with hcomment hsign hspace
      · rfl
      · rfl
      · rfl
      · exact absurd (hblank.resolve_left hsign) hspace
    · rw [dropWhile_cons_of_neg hblank]
      simp only [isBlank, Bool.or_eq_true, decide_eq_true_eq, or_assoc, not_or] at hblank
      obtain ⟨hsign, hspace, htab, hline, hreturn⟩ := hblank
      rw [if_neg fun h => hline h.2, if_neg hsign, if_neg]
      rintro (h | h | h | h)
      · exact hspace h
      · exact htab h
      · exact hline h
      · exact hreturn h

theorem skipWhitespaceAndComments_eq (cur : List UInt8) : skipWhitespaceAndComments cur = cur.dropWhile isBlank :=
  skipBlanks_eq false cur

/-- What separates the words of a rule. -/
inductive Gap : List UInt8 → Prop
  | nil : Gap []
  | blank {c : UInt8} {gap : List UInt8} (hc : c = 32 ∨ c = 9 ∨ c = 13) (h : Gap gap) : Gap (c :: gap)
  | continuation {gap : List UInt8} (h : Gap gap) : Gap (92 :: 10 :: gap)
  | continuation' {gap : List UInt8} (h : Gap gap) : Gap (92 :: 13 :: 10 :: gap)

/-- Nothing that separates words follows. -/
structure GapEnd (cur : List UInt8) : Prop where
  blank : ∀ c ∈ cur.head?, ¬ (c = 32 ∨ c = 9 ∨ c = 13)
  continuation : ∀ rest, cur ≠ 92 :: 10 :: rest
  continuation' : ∀ rest, cur ≠ 92 :: 13 :: 10 :: rest

theorem skip_blank (hc : c = 32 ∨ c = 9 ∨ c = 13) (rest : List UInt8) :
    skipNonNewlineWhitespace (c :: rest) = skipNonNewlineWhitespace rest := by
  rcases rest with _ | ⟨c', _ | ⟨c'', rest⟩⟩
  · show (if c = 32 ∨ c = 9 ∨ c = 13 then [] else [c]) = []
    exact if_pos hc
  · conv_lhs => rw [skipNonNewlineWhitespace]
    exact if_pos hc
  · rw [skipNonNewlineWhitespace, if_pos hc]

theorem skip_continuation (rest : List UInt8) :
    skipNonNewlineWhitespace (92 :: 10 :: rest) = skipNonNewlineWhitespace rest := by
  cases rest with
  | nil => rfl
  | cons c rest => rw [skipNonNewlineWhitespace, if_neg (by decide), if_pos ⟨rfl, rfl⟩]

theorem skip_continuation' (rest : List UInt8) :
    skipNonNewlineWhitespace (92 :: 13 :: 10 :: rest) = skipNonNewlineWhitespace rest := by
  rw [skipNonNewlineWhitespace, if_neg (by decide), if_neg (by decide), if_pos ⟨rfl, rfl, rfl⟩]

theorem skip_end (h : GapEnd cur) : skipNonNewlineWhitespace cur = cur := by
  rcases cur with _ | ⟨c, _ | ⟨c', _ | ⟨c'', rest⟩⟩⟩
  · rfl
  · rw [skipNonNewlineWhitespace, if_neg (h.blank c rfl)]
  · rw [skipNonNewlineWhitespace, if_neg (h.blank c rfl), if_neg]
    rintro ⟨rfl, rfl⟩
    exact h.continuation [] rfl
  · rw [skipNonNewlineWhitespace, if_neg (h.blank c rfl), if_neg, if_neg]
    · rintro ⟨rfl, rfl, rfl⟩
      exact h.continuation' rest rfl
    · rintro ⟨rfl, rfl⟩
      exact h.continuation _ rfl

theorem skip_append {gap : List UInt8} (h : Gap gap) (hend : GapEnd rest) :
    skipNonNewlineWhitespace (gap ++ rest) = rest := by
  induction h with
  | nil => exact skip_end hend
  | blank hc _ ih => rw [cons_append, skip_blank hc, ih]
  | continuation _ ih => rw [cons_append, cons_append, skip_continuation, ih]
  | continuation' _ ih => rw [cons_append, cons_append, cons_append, skip_continuation', ih]

/-- Skipping goes over a gap, up to its end. -/
theorem skip_cases (cur : List UInt8) :
    ∃ gap, Gap gap ∧ GapEnd (skipNonNewlineWhitespace cur) ∧ cur = gap ++ skipNonNewlineWhitespace cur := by
  induction hlength : cur.length using Nat.strongRecOn generalizing cur with
  | ind n ih =>
    subst hlength
    by_cases hend : GapEnd cur
    · rw [skip_end hend]
      exact ⟨[], .nil, hend, rfl⟩
    · by_cases hblank : ∃ c rest, cur = c :: rest ∧ (c = 32 ∨ c = 9 ∨ c = 13)
      · obtain ⟨c, rest, rfl, hc⟩ := hblank
        obtain ⟨gap, hgap, hstop, heq⟩ := ih rest.length (Nat.lt_succ_self _) rest rfl
        rw [skip_blank hc]
        exact ⟨c :: gap, .blank hc hgap, hstop, by rw [cons_append, ← heq]⟩
      · by_cases hline : ∃ rest, cur = 92 :: 10 :: rest
        · obtain ⟨rest, rfl⟩ := hline
          obtain ⟨gap, hgap, hstop, heq⟩ := ih rest.length (by rw [length_cons, length_cons]; omega) rest rfl
          rw [skip_continuation]
          exact ⟨92 :: 10 :: gap, .continuation hgap, hstop, by rw [cons_append, cons_append, ← heq]⟩
        · by_cases hline' : ∃ rest, cur = 92 :: 13 :: 10 :: rest
          · obtain ⟨rest, rfl⟩ := hline'
            obtain ⟨gap, hgap, hstop, heq⟩ := ih rest.length
              (by rw [length_cons, length_cons, length_cons]; omega) rest rfl
            rw [skip_continuation']
            refine ⟨92 :: 13 :: 10 :: gap, .continuation' hgap, hstop, ?_⟩
            rw [cons_append, cons_append, cons_append, ← heq]
          · refine absurd ⟨?_, fun rest h => hline ⟨rest, h⟩, fun rest h => hline' ⟨rest, h⟩⟩ hend
            intro c hc hspace
            obtain ⟨rest, hcur⟩ := head?_eq_some_iff.mp hc
            exact hblank ⟨c, rest, hcur, hspace⟩

theorem skip_suffix (cur : List UInt8) : skipNonNewlineWhitespace cur <:+ cur := by
  obtain ⟨gap, -, -, heq⟩ := skip_cases cur
  exact ⟨gap, heq.symm⟩

theorem skipToEndOfLine_suffix (cur : List UInt8) : skipToEndOfLine cur <:+ cur := by
  induction cur with
  | nil => exact suffix_rfl
  | cons c rest ih =>
    rw [skipToEndOfLine]
    split_ifs
    · exact suffix_cons c rest
    · exact ih.trans (suffix_cons c rest)

theorem skipToEndOfLine_length_lt (h : cur ≠ []) :
    (skipToEndOfLine cur).length < cur.length := by
  cases cur with
  | nil => exact absurd rfl h
  | cons c rest =>
    rw [skipToEndOfLine]
    split_ifs
    · exact Nat.lt_succ_self _
    · exact Nat.lt_succ_of_le (skipToEndOfLine_suffix rest).length_le

/-! ## Turns -/

section

variable {data : List UInt8} {ignoreSubsequentOutputs : Bool} {s t : State}

theorem slice_append (text stop : List UInt8) : slice (text ++ stop) stop = text := by
  rw [slice, length_append, Nat.add_sub_cancel, take_left]

variable {text cur : List UInt8}

theorem ne_append (h : text ≠ []) (stop : List UInt8) : stop ≠ text ++ stop :=
  fun heq => h (self_eq_append_left.mp heq)

theorem ruleTurn_end (h : skipWhitespaceAndComments s.cur = []) : ruleTurn data s = .inl (some s.actions) := by
  unfold ruleTurn
  simp only
  rw [if_pos h]

theorem ruleTurn_outside (h : RunsOut (skipWhitespaceAndComments s.cur)) : ruleTurn data s = .inl none := by
  have hne : skipWhitespaceAndComments s.cur ≠ [] := by
    obtain ⟨text, word, -, heq⟩ := h
    rw [heq]
    exact append_ne_nil_of_right_ne_nil text (cons_ne_nil _ _)
  unfold ruleTurn
  simp only
  rw [if_neg hne, lexWord_of_runsOut h]

theorem ruleTurn_unexpected (hne : skipWhitespaceAndComments s.cur ≠ [])
    (h : WordEnd (skipWhitespaceAndComments s.cur)) : ruleTurn data s =
      .inr ⟨skipToEndOfLine (skipWhitespaceAndComments s.cur), false, s.actions ++
        [.error "unexpected character in file" (position data (skipWhitespaceAndComments s.cur))]⟩ := by
  unfold ruleTurn
  simp only
  rw [if_neg hne, lexWord_end h]
  exact if_pos rfl

section

variable {text word stop : List UInt8} (hcur : skipWhitespaceAndComments s.cur = text ++ stop)
  (hword : WordText text word) (hne : text ≠ []) (hend : WordEnd stop)

include hcur hword hne hend

theorem ruleTurn_rule {rest : List UInt8} (hcolon : skipNonNewlineWhitespace stop = 58 :: rest) :
    ruleTurn data s = .inr ⟨rest, true, s.actions ++ [.actOnRuleStart text word]⟩ := by
  unfold ruleTurn
  simp only
  rw [hcur, if_neg (append_ne_nil_of_left_ne_nil hne stop), lexWord_append hword hend]
  simp only
  rw [if_neg (ne_append hne stop), hcolon, slice_append]
  exact if_pos rfl

theorem ruleTurn_missing (hcolon : (skipNonNewlineWhitespace stop).head? ≠ some 58) : ruleTurn data s =
    .inr ⟨skipToEndOfLine (skipNonNewlineWhitespace stop), false, s.actions ++ [.actOnRuleStart text word,
      .error "missing ':' following rule" (position data (skipNonNewlineWhitespace stop)), .actOnRuleEnd]⟩ := by
  unfold ruleTurn
  simp only
  rw [hcur, if_neg (append_ne_nil_of_left_ne_nil hne stop), lexWord_append hword hend]
  simp only
  rw [if_neg (ne_append hne stop), if_neg hcolon, slice_append]

end

/-- Where the loop over rules may stand. -/
theorem rule_cases (cur : List UInt8) : cur = [] ∨ RunsOut cur ∨ (cur ≠ [] ∧ WordEnd cur) ∨
    ∃ text word stop, WordText text word ∧ text ≠ [] ∧ WordEnd stop ∧ cur = text ++ stop := by
  by_cases hnil : cur = []
  · exact .inl hnil
  · rcases lexWord_cases cur with hout | ⟨text, word, stop, htext, hend, rfl⟩
    · exact .inr (.inl hout)
    · by_cases hne : text = []
      · subst hne
        exact .inr (.inr (.inl ⟨hnil, hend⟩))
      · exact .inr (.inr (.inr ⟨text, word, stop, htext, hne, hend, rfl⟩))

theorem dependencyTurn_end
    (h : skipNonNewlineWhitespace s.cur = [] ∨ (skipNonNewlineWhitespace s.cur).head? = some 10) :
    dependencyTurn data ignoreSubsequentOutputs s =
      if ignoreSubsequentOutputs then .inl (some (s.actions ++ [.actOnRuleEnd]))
      else .inr ⟨skipNonNewlineWhitespace s.cur, false, s.actions ++ [.actOnRuleEnd]⟩ := by
  unfold dependencyTurn
  simp only
  rw [if_pos h]

/-- The words of a dependency run into a backslash as the last byte. -/
def DependencyRunsOut (cur : List UInt8) : Prop :=
  RunsOut cur ∨ ∃ text word rest, WordText text word ∧ text ≠ [] ∧ ColonsRunOut rest ∧ cur = text ++ rest

theorem head_ne_line {word : List UInt8} (hword : WordText text word) (hne : text ≠ []) (rest : List UInt8) :
    (text ++ rest).head? ≠ some 10 := by
  cases hword with
  | nil => exact absurd rfl hne
  | escape hc h | dollar h =>
    intro hhead
    cases hhead
  | char hc hescape h =>
    intro hhead
    rw [cons_append, head?_cons] at hhead
    cases hhead
    cases hc

theorem dependencyRunsOut_ne (h : DependencyRunsOut cur) : ¬ (cur = [] ∨ cur.head? = some 10) := by
  have hnext : ∀ {text word rest : List UInt8}, WordText text word → rest ≠ [] → rest.head? ≠ some 10 →
      ¬ (text ++ rest = [] ∨ (text ++ rest).head? = some 10) := by
    rintro text word rest hword hrest hline (hnil | hhead)
    · exact hrest (append_eq_nil_iff.mp hnil).2
    · by_cases hne : text = []
      · rw [hne] at hhead
        exact hline hhead
      · exact head_ne_line hword hne rest hhead
  rcases h with ⟨text, word, hword, rfl⟩ | ⟨text, word, rest, hword, -, hout, rfl⟩
  · exact hnext hword (cons_ne_nil _ _) (by decide)
  · cases hout with
    | last h | colon h h' => exact hnext hword (cons_ne_nil _ _) (fun hhead => nomatch hhead)

theorem dependencyTurn_outside (h : DependencyRunsOut (skipNonNewlineWhitespace s.cur)) :
    dependencyTurn data ignoreSubsequentOutputs s = .inl none := by
  unfold dependencyTurn
  simp only
  rw [if_neg (dependencyRunsOut_ne h)]
  rcases h with hout | ⟨text, word, rest, hword, hne, hout, hcur⟩
  · rw [lexWord_of_runsOut hout]
  · rw [hcur, lexWord_append hword hout.wordEnd]
    simp only
    rw [if_neg (ne_append hne rest), lexColons_of_runOut hout]

theorem dependencyTurn_unexpected (hne : ¬ (skipNonNewlineWhitespace s.cur = [] ∨
      (skipNonNewlineWhitespace s.cur).head? = some 10))
    (h : WordEnd (skipNonNewlineWhitespace s.cur)) : dependencyTurn data ignoreSubsequentOutputs s =
      .inr ⟨skipToEndOfLine (skipNonNewlineWhitespace s.cur), true, s.actions ++
        [.error "unexpected character in prerequisites" (position data (skipNonNewlineWhitespace s.cur))]⟩ := by
  unfold dependencyTurn
  simp only
  rw [if_neg hne, lexWord_end h]
  exact if_pos rfl

theorem wordEnd_colons {more rest : List UInt8} (h : ColonsText text more) (hend : WordEnd rest) :
    WordEnd (text ++ rest) := by
  cases h with
  | nil => exact hend
  | colon h h' => exact wordEnd_colon _

theorem dependencyTurn_dependency {word colons more stop : List UInt8}
    (hcur : skipNonNewlineWhitespace s.cur = text ++ (colons ++ stop)) (hword : WordText text word) (hne : text ≠ [])
    (hcolons : ColonsText colons more) (hend : WordEnd stop) (hcolon : stop.head? ≠ some 58) :
    dependencyTurn data ignoreSubsequentOutputs s =
      .inr ⟨stop, true, s.actions ++ [.actOnRuleDependency (text ++ colons) (word ++ more)]⟩ := by
  have hnot : ¬ (text ++ (colons ++ stop) = [] ∨ (text ++ (colons ++ stop)).head? = some 10) := by
    rintro (hnil | hhead)
    · exact hne (append_eq_nil_iff.mp hnil).1
    · exact head_ne_line hword hne _ hhead
  unfold dependencyTurn
  simp only
  rw [hcur, if_neg hnot, lexWord_append hword (wordEnd_colons hcolons hend)]
  simp only
  rw [if_neg (ne_append hne _), lexColons_append hcolons hend hcolon]
  simp only
  rw [← append_assoc, slice_append]

/-- Where the loop over dependency words may stand. -/
theorem dependency_cases (cur : List UInt8) : (cur = [] ∨ cur.head? = some 10) ∨ DependencyRunsOut cur ∨
    (¬ (cur = [] ∨ cur.head? = some 10) ∧ WordEnd cur) ∨
    ∃ text word colons more stop, WordText text word ∧ text ≠ [] ∧ ColonsText colons more ∧ WordEnd stop ∧
      stop.head? ≠ some 58 ∧ cur = text ++ (colons ++ stop) := by
  by_cases hline : cur = [] ∨ cur.head? = some 10
  · exact .inl hline
  · rcases lexWord_cases cur with hout | ⟨text, word, rest, htext, hend, rfl⟩
    · exact .inr (.inl (.inl hout))
    · by_cases hne : text = []
      · subst hne
        exact .inr (.inr (.inl ⟨hline, hend⟩))
      · rcases lexColons_cases hend with ⟨-, hout⟩ | ⟨colons, more, stop, hcolons, hend', hcolon, rfl⟩
        · exact .inr (.inl (.inr ⟨text, word, rest, htext, hne, hout, rfl⟩))
        · exact .inr (.inr (.inr ⟨text, word, colons, more, stop, htext, hne, hcolons, hend', hcolon, rfl⟩))

/-- The words at the cursor, behind what is skipped, run into a backslash as the last byte of the data. -/
def BackslashAtEnd (s : State) : Prop :=
  if s.inRule then DependencyRunsOut (skipNonNewlineWhitespace s.cur) else RunsOut (skipWhitespaceAndComments s.cur)

/-- All that a turn can do. -/
inductive Step (data : List UInt8) (ignoreSubsequentOutputs : Bool) (s : State) :
    Option (List Action) ⊕ State → Prop
  | done (hinRule : s.inRule = false) (hnil : skipWhitespaceAndComments s.cur = []) :
      Step data ignoreSubsequentOutputs s (.inl (some s.actions))
  | outside (h : BackslashAtEnd s) : Step data ignoreSubsequentOutputs s (.inl none)
  | unexpected (hinRule : s.inRule = false) (hne : skipWhitespaceAndComments s.cur ≠ [])
      (hend : WordEnd (skipWhitespaceAndComments s.cur)) :
      Step data ignoreSubsequentOutputs s (.inr ⟨skipToEndOfLine (skipWhitespaceAndComments s.cur), false, s.actions ++
        [.error "unexpected character in file" (position data (skipWhitespaceAndComments s.cur))]⟩)
  | rule {text word stop rest : List UInt8} (hinRule : s.inRule = false)
      (hcur : skipWhitespaceAndComments s.cur = text ++ stop) (hword : WordText text word) (hne : text ≠ [])
      (hend : WordEnd stop) (hcolon : skipNonNewlineWhitespace stop = 58 :: rest) :
      Step data ignoreSubsequentOutputs s (.inr ⟨rest, true, s.actions ++ [.actOnRuleStart text word]⟩)
  | missing {text word stop : List UInt8} (hinRule : s.inRule = false)
      (hcur : skipWhitespaceAndComments s.cur = text ++ stop) (hword : WordText text word) (hne : text ≠ [])
      (hend : WordEnd stop) (hcolon : (skipNonNewlineWhitespace stop).head? ≠ some 58) :
      Step data ignoreSubsequentOutputs s (.inr ⟨skipToEndOfLine (skipNonNewlineWhitespace stop), false, s.actions ++
        [.actOnRuleStart text word, .error "missing ':' following rule" (position data (skipNonNewlineWhitespace stop)),
          .actOnRuleEnd]⟩)
  | ruleEnd (hinRule : s.inRule = true)
      (hline : skipNonNewlineWhitespace s.cur = [] ∨ (skipNonNewlineWhitespace s.cur).head? = some 10)
      (hignore : ignoreSubsequentOutputs = false) : Step data ignoreSubsequentOutputs s
        (.inr ⟨skipNonNewlineWhitespace s.cur, false, s.actions ++ [.actOnRuleEnd]⟩)
  | ignored (hinRule : s.inRule = true)
      (hline : skipNonNewlineWhitespace s.cur = [] ∨ (skipNonNewlineWhitespace s.cur).head? = some 10)
      (hignore : ignoreSubsequentOutputs = true) :
      Step data ignoreSubsequentOutputs s (.inl (some (s.actions ++ [.actOnRuleEnd])))
  | unexpectedDependency (hinRule : s.inRule = true) (hne : skipNonNewlineWhitespace s.cur ≠ [])
      (hend : WordEnd (skipNonNewlineWhitespace s.cur)) :
      Step data ignoreSubsequentOutputs s (.inr ⟨skipToEndOfLine (skipNonNewlineWhitespace s.cur), true, s.actions ++
        [.error "unexpected character in prerequisites" (position data (skipNonNewlineWhitespace s.cur))]⟩)
  | dependency {text word colons more stop : List UInt8} (hinRule : s.inRule = true)
      (hcur : skipNonNewlineWhitespace s.cur = text ++ (colons ++ stop)) (hword : WordText text word) (hne : text ≠ [])
      (hcolons : ColonsText colons more) (hend : WordEnd stop) (hcolon : stop.head? ≠ some 58) :
      Step data ignoreSubsequentOutputs s
        (.inr ⟨stop, true, s.actions ++ [.actOnRuleDependency (text ++ colons) (word ++ more)]⟩)

theorem turn_of_inRule (h : s.inRule = true) :
    turn data ignoreSubsequentOutputs s = dependencyTurn data ignoreSubsequentOutputs s := if_pos h

theorem turn_of_not_inRule (h : s.inRule = false) : turn data ignoreSubsequentOutputs s = ruleTurn data s :=
  if_neg (eq_false_iff.mp h)

theorem turn_outside (h : BackslashAtEnd s) : turn data ignoreSubsequentOutputs s = .inl none := by
  unfold BackslashAtEnd at h
  cases hinRule : s.inRule with
  | true =>
    rw [hinRule, if_pos rfl] at h
    rw [turn_of_inRule hinRule, dependencyTurn_outside h]
  | false =>
    rw [hinRule, if_neg Bool.false_ne_true] at h
    rw [turn_of_not_inRule hinRule, ruleTurn_outside h]

theorem step_turn (data : List UInt8) (ignoreSubsequentOutputs : Bool) (s : State) :
    Step data ignoreSubsequentOutputs s (turn data ignoreSubsequentOutputs s) := by
  cases hinRule : s.inRule with
  | true =>
    rcases dependency_cases (skipNonNewlineWhitespace s.cur) with
      hline | hout | ⟨hne, hend⟩ | ⟨text, word, colons, more, stop, hword, hne, hcolons, hend, hcolon, hcur⟩
    · rw [turn_of_inRule hinRule, dependencyTurn_end hline]
      cases hignore : ignoreSubsequentOutputs with
      | true => exact .ignored hinRule hline rfl
      | false => exact .ruleEnd hinRule hline rfl
    · have hbackslash : BackslashAtEnd s := by
        unfold BackslashAtEnd
        rw [if_pos hinRule]
        exact hout
      rw [turn_outside hbackslash]
      exact .outside hbackslash
    · rw [turn_of_inRule hinRule, dependencyTurn_unexpected hne hend]
      exact .unexpectedDependency hinRule (fun hnil => hne (.inl hnil)) hend
    · rw [turn_of_inRule hinRule, dependencyTurn_dependency hcur hword hne hcolons hend hcolon]
      exact .dependency hinRule hcur hword hne hcolons hend hcolon
  | false =>
    rcases rule_cases (skipWhitespaceAndComments s.cur) with
      hnil | hout | ⟨hne, hend⟩ | ⟨text, word, stop, hword, hne, hend, hcur⟩
    · rw [turn_of_not_inRule hinRule, ruleTurn_end hnil]
      exact .done hinRule hnil
    · have hbackslash : BackslashAtEnd s := by
        unfold BackslashAtEnd
        rw [if_neg (eq_false_iff.mp hinRule)]
        exact hout
      rw [turn_outside hbackslash]
      exact .outside hbackslash
    · rw [turn_of_not_inRule hinRule, ruleTurn_unexpected hne hend]
      exact .unexpected hinRule hne hend
    · by_cases hhead : (skipNonNewlineWhitespace stop).head? = some 58
      · obtain ⟨rest, hrest⟩ := head?_eq_some_iff.mp hhead
        rw [turn_of_not_inRule hinRule, ruleTurn_rule hcur hword hne hend hrest]
        exact .rule hinRule hcur hword hne hend hrest
      · rw [turn_of_not_inRule hinRule, ruleTurn_missing hcur hword hne hend hhead]
        exact .missing hinRule hcur hword hne hend hhead

theorem step_of_turn {outcome : Option (List Action) ⊕ State}
    (h : turn data ignoreSubsequentOutputs s = outcome) : Step data ignoreSubsequentOutputs s outcome :=
  h ▸ step_turn data ignoreSubsequentOutputs s

/-! ## Termination -/

/-- In the loop over rules a turn makes the cursor go on; the loop over dependency words may end without. -/
def measure (s : State) : Nat := 2 * s.cur.length + if s.inRule then 1 else 0

theorem skipWhitespaceAndComments_suffix (cur : List UInt8) : skipWhitespaceAndComments cur <:+ cur :=
  skipBlanks_suffix false cur

/-- A turn goes on in the data. -/
structure Advances (s t : State) : Prop where
  suffix : t.cur <:+ s.cur
  measure : measure t < measure s

theorem advances_of_length_lt (hsuffix : t.cur <:+ s.cur) (h : t.cur.length < s.cur.length) : Advances s t := by
  refine ⟨hsuffix, ?_⟩
  unfold measure
  split_ifs
  · omega
  · omega
  · omega
  · omega

/-- Behind a text that is not empty, in what is left behind blanks. -/
theorem advances_of_append {stop : List UInt8} (hcur : cur <:+ s.cur) (heq : cur = text ++ stop) (hne : text ≠ [])
    (ht : t.cur <:+ stop) : Advances s t := by
  have hpos := length_pos_iff.mpr hne
  have hle := hcur.length_le
  have hle' := ht.length_le
  rw [heq] at hcur hle
  rw [length_append] at hle
  exact advances_of_length_lt (ht.trans ((suffix_append text stop).trans hcur)) (by omega)

theorem advances_of_line (hcur : cur <:+ s.cur) (hne : cur ≠ []) (ht : t.cur = skipToEndOfLine cur) :
    Advances s t := by
  refine advances_of_length_lt ?_ ?_
  · rw [ht]
    exact (skipToEndOfLine_suffix cur).trans hcur
  · rw [ht]
    exact Nat.lt_of_lt_of_le (skipToEndOfLine_length_lt hne) hcur.length_le

theorem advances_turn (h : turn data ignoreSubsequentOutputs s = .inr t) : Advances s t := by
  have hskip := skipWhitespaceAndComments_suffix s.cur
  have hskip' := skip_suffix s.cur
  cases step_of_turn h with
  | unexpected _ hne _ => exact advances_of_line hskip hne rfl
  | @rule _ _ stop rest _ hcur _ hne _ hcolon =>
    refine advances_of_append hskip hcur hne ?_
    have hstop := skip_suffix stop
    rw [hcolon] at hstop
    exact (suffix_cons 58 rest).trans hstop
  | @missing _ _ stop _ hcur _ hne _ _ =>
    exact advances_of_append hskip hcur hne ((skipToEndOfLine_suffix _).trans (skip_suffix stop))
  | ruleEnd hinRule _ _ =>
    refine ⟨hskip', ?_⟩
    -- The cursor may stay, but the loop is left.
    have hle := hskip'.length_le
    show 2 * (skipNonNewlineWhitespace s.cur).length + 0 < 2 * s.cur.length + if s.inRule then 1 else 0
    rw [if_pos hinRule]
    omega
  | unexpectedDependency _ hne _ => exact advances_of_line hskip' hne rfl
  | @dependency _ _ colons _ stop _ hcur _ hne _ _ _ =>
    exact advances_of_append hskip' hcur hne (suffix_append colons stop)

/-- The parser comes to an end, inside the data or outside. -/
theorem exists_parses (data : List UInt8) (ignoreSubsequentOutputs : Bool) :
    ∃ result, Parses data ignoreSubsequentOutputs result :=
  Loop.exists_ends (fun _ _ h => (advances_turn h).measure) (State.init data)

/-! ## Reading outside the data -/

theorem turn_eq_outside : turn data ignoreSubsequentOutputs s = .inl none ↔ BackslashAtEnd s := by
  refine ⟨fun h => ?_, turn_outside⟩
  cases step_of_turn h with
  | outside hout => exact hout

theorem getLast_of_append (front : List UInt8) {rest : List UInt8} (h : rest.getLast? = some 92) :
    (front ++ rest).getLast? = some 92 := by
  rw [getLast?_append, h]
  rfl

/-- **The parser is total** on all data in which no word that it comes to runs into a backslash as the last byte. -/
theorem parses_iff (data : List UInt8) (ignoreSubsequentOutputs : Bool) :
    (∃ actions, Parses data ignoreSubsequentOutputs (some actions)) ↔
      ∀ s, Loop.Reaches (turn data ignoreSubsequentOutputs) (State.init data) s → ¬ BackslashAtEnd s := by
  constructor
  · rintro ⟨actions, hends⟩ s hreaches hout
    have hends' := (Loop.ends_of_reaches hreaches).mp hends
    rw [Loop.ends_of_inl (turn_outside hout)] at hends'
    cases hends'
  · intro hnone
    obtain ⟨result, hends⟩ := exists_parses data ignoreSubsequentOutputs
    cases result with
    | some actions => exact ⟨actions, hends⟩
    | none =>
      obtain ⟨s, hreaches, hturn⟩ := hends.reaches
      exact absurd (turn_eq_outside.mp hturn) (hnone s hreaches)

/-- `a: b` and a backslash. -/
theorem backslash_not_parses : ¬ ∃ actions, Parses [97, 58, 32, 98, 92] false (some actions) := by
  rintro ⟨actions, hparses⟩
  have houtside : Parses [97, 58, 32, 98, 92] false none := ⟨2, by decide⟩
  cases hparses.unique houtside

end

end MakefileDepsParser

end Builra
