import Builra.Core.MakefileDepsParser
import Mathlib.Data.List.TakeWhile

namespace Builra

open List

/-!
# `Core.MakefileDepsFormat` — dependency files as compilers write them

Rules, one a line, with words that are escaped and separated by spaces and line continuations, and lines of comments
between them; and what the parser recovers of such a file.
-/

namespace MakefileDepsParser

/-! ## The format -/

structure Word where
  bytes : List UInt8
  ne_nil : bytes ≠ []
  plain : ∀ c ∈ bytes, c ≠ 0 ∧ c ≠ 9 ∧ c ≠ 13 ∧ c ≠ 10 ∧ c ≠ 92

structure Target extends Word where
  noColon : 58 ∉ bytes

structure Dependency extends Word where
  head : bytes.head? ≠ some 58

/-- How a character of a word is written. -/
def escape (c : UInt8) : List UInt8 := if c = 32 ∨ c = 35 then [92, c] else if c = 36 then [36, 36] else [c]

def Word.text (w : Word) : List UInt8 := w.bytes.flatMap escape

/-- A space, or a line continuation. -/
inductive Break where
  | space
  | continuation
  | crlfContinuation
deriving DecidableEq

def Break.text : Break → List UInt8
  | .space => [32]
  | .continuation => [92, 10]
  | .crlfContinuation => [92, 13, 10]

structure Separator where
  first : Break
  more : List Break

def Separator.text (s : Separator) : List UInt8 := s.first.text ++ s.more.flatMap Break.text

structure Rule where
  target : Target
  dependencies : List (Separator × Dependency)

/-- Dependencies, each behind its separator. -/
def dependenciesText (dependencies : List (Separator × Dependency)) : List UInt8 :=
  dependencies.flatMap fun d => d.1.text ++ d.2.text

def Rule.text (r : Rule) : List UInt8 := r.target.text ++ 58 :: dependenciesText r.dependencies

inductive LineEnd where
  | lf
  | crlf

def LineEnd.text : LineEnd → List UInt8
  | .lf => [10]
  | .crlf => [13, 10]

/-- The text of a comment, behind the `#`. -/
structure Comment where
  text : List UInt8
  oneLine : 10 ∉ text

inductive Line where
  | rule (r : Rule)
  | comment (c : Comment)

def Line.text : Line → List UInt8
  | .rule r => r.text
  | .comment c => 35 :: c.text

/-- A file; the last rule may lack its line end. -/
structure File where
  lines : List (Line × LineEnd)
  last : Option Rule

variable (lines : List (Line × LineEnd))

/-- The text of lines, and a rule behind them. -/
def linesText (last : Option Rule) : List UInt8 :=
  (lines.flatMap fun l => l.1.text ++ l.2.text) ++ last.elim [] Rule.text

variable (f : File)

def File.text : List UInt8 := linesText f.lines f.last

/-- What is reported, apart from the texts in the data. -/
inductive Report where
  | error
  | ruleStart (word : List UInt8)
  | dependency (word : List UInt8)
  | ruleEnd
deriving DecidableEq

def Action.report : Action → Report
  | .error _ _ => .error
  | .actOnRuleStart _ unescapedWord => .ruleStart unescapedWord
  | .actOnRuleDependency _ unescapedWord => .dependency unescapedWord
  | .actOnRuleEnd => .ruleEnd

def Rule.reports (r : Rule) : List Report :=
  .ruleStart r.target.bytes :: (r.dependencies.map fun d => .dependency d.2.bytes) ++ [.ruleEnd]

def Line.reports : Line → List Report
  | .rule r => r.reports
  | .comment _ => []

def linesReports (last : Option Rule) : List Report :=
  (lines.flatMap fun l => l.1.reports) ++ last.elim [] Rule.reports

def File.reports : List Report := linesReports f.lines f.last

/-- The rules of the file are reported, word for word, and nothing else. -/
def Recovers : Prop :=
  ∃ actions, Parses f.text false (some actions) ∧ actions.map Action.report = f.reports

/-- No dependency is followed at once by a continuation with CRLF. -/
def Rule.Plain (r : Rule) : Prop := ∀ d ∈ r.dependencies.tail, d.1.first ≠ .crlfContinuation

/-- Such a rule, or a comment of nothing but `#` and whitespace. -/
def Line.Plain : Line → Prop
  | .rule r => r.Plain
  | .comment c => ∀ b ∈ c.text, isBlank b = true

structure PlainLines (lines : List (Line × LineEnd)) (last : Option Rule) : Prop where
  lines : ∀ l ∈ lines, l.1.Plain
  last : ∀ r ∈ last, r.Plain

def File.Plain : Prop := PlainLines f.lines f.last

/-! ## Words -/

theorem plain_of_ne {c : UInt8} (h : c ≠ 0 ∧ c ≠ 9 ∧ c ≠ 13 ∧ c ≠ 10 ∧ c ≠ 92) (hspace : c ≠ 32) (hdollar : c ≠ 36)
    (hcolon : c ≠ 58) : isWordChar c = true := by
  obtain ⟨hnul, htab, hreturn, hline, -⟩ := h
  unfold isWordChar
  rw [decide_eq_false hnul, decide_eq_false htab, decide_eq_false hreturn, decide_eq_false hline,
    decide_eq_false hspace, decide_eq_false hdollar, decide_eq_false hcolon]
  rfl

/-- A character that is not a colon is written as text of a word. -/
theorem wordText_escape {c : UInt8} (h : c ≠ 0 ∧ c ≠ 9 ∧ c ≠ 13 ∧ c ≠ 10 ∧ c ≠ 92) (hcolon : c ≠ 58)
    {text word : List UInt8} (hword : WordText text word) : WordText (escape c ++ text) (c :: word) := by
  unfold escape
  by_cases hescaped : c = 32 ∨ c = 35
  · rw [if_pos hescaped]
    have hunescape : unescape c = [c] := if_pos (hescaped.imp_right .inl)
    have htext := WordText.escape h.2.2.2.1 hword
    rw [hunescape] at htext
    exact htext
  · rw [if_neg hescaped]
    rw [not_or] at hescaped
    by_cases hdollar : c = 36
    · subst hdollar
      exact .dollar hword
    · rw [if_neg hdollar]
      exact .char (plain_of_ne h hescaped.1 hdollar hcolon) h.2.2.2.2 hword

/-- Up to the first colon, and with the colons, the text of a word is what the lexer reads, also if more text of words
    follows. -/
theorem exists_text {extra extraWord : List UInt8} (hextra : WordText extra extraWord) {bytes : List UInt8}
    (h : ∀ c ∈ bytes, c ≠ 0 ∧ c ≠ 9 ∧ c ≠ 13 ∧ c ≠ 10 ∧ c ≠ 92) :
    ∃ text word colons more, WordText text word ∧ ColonsText colons more ∧
      bytes.flatMap escape ++ extra = text ++ colons ∧ bytes ++ extraWord = word ++ more ∧
      (text = [] → bytes = [] ∨ bytes.head? = some 58) := by
  induction bytes with
  | nil =>
    refine ⟨extra, extraWord, [], [], hextra, .nil, ?_, ?_, fun _ => .inl rfl⟩
    · rw [flatMap_nil, nil_append, append_nil]
    · rw [nil_append, append_nil]
  | cons c bytes ih =>
    obtain ⟨text, word, colons, more, hword, hcolons, htext, hbytes, -⟩ :=
      ih fun c' hc' => h c' (mem_cons_of_mem c hc')
    by_cases hcolon : c = 58
    · subst hcolon
      refine ⟨[], [], 58 :: (text ++ colons), 58 :: (word ++ more), .nil, .colon hword hcolons, ?_, ?_, fun _ => .inr rfl⟩
      · rw [flatMap_cons, append_assoc, htext]
        rfl
      · rw [cons_append, hbytes, nil_append]
    · refine ⟨escape c ++ text, c :: word, colons, more,
        wordText_escape (h c mem_cons_self) hcolon hword, hcolons, ?_, ?_, ?_⟩
      · rw [flatMap_cons, append_assoc, htext, append_assoc]
      · rw [cons_append, hbytes, cons_append]
      · intro hnil
        have hescape : escape c ≠ [] := by
          unfold escape
          split_ifs
          · exact cons_ne_nil _ _
          · exact cons_ne_nil _ _
          · exact cons_ne_nil _ _
        exact absurd (append_eq_nil_iff.mp hnil).1 hescape

theorem Target.wordText (w : Target) : WordText w.text w.bytes := by
  have hall : ∀ {bytes : List UInt8}, (∀ c ∈ bytes, c ≠ 0 ∧ c ≠ 9 ∧ c ≠ 13 ∧ c ≠ 10 ∧ c ≠ 92) → 58 ∉ bytes →
      WordText (bytes.flatMap escape) bytes := by
    intro bytes hplain hcolon
    induction bytes with
    | nil => exact .nil
    | cons c bytes ih =>
      rw [flatMap_cons]
      refine wordText_escape (hplain c mem_cons_self) (fun heq => hcolon (heq ▸ mem_cons_self)) ?_
      exact ih (fun c' hc' => hplain c' (mem_cons_of_mem c hc')) (not_mem_of_not_mem_cons hcolon)
  exact hall w.plain w.noColon

theorem Dependency.exists_text (w : Dependency) {extra extraWord : List UInt8} (hextra : WordText extra extraWord) :
    ∃ text word colons more, WordText text word ∧ text ≠ [] ∧ ColonsText colons more ∧
      w.text ++ extra = text ++ colons ∧ w.bytes ++ extraWord = word ++ more := by
  obtain ⟨text, word, colons, more, hword, hcolons, htext, hbytes, hne⟩ := MakefileDepsParser.exists_text hextra w.plain
  refine ⟨text, word, colons, more, hword, ?_, hcolons, htext, hbytes⟩
  intro hnil
  rcases hne hnil with hbytes | hhead
  · exact w.ne_nil hbytes
  · exact w.head hhead

/-- The first byte of a word's text. -/
theorem Word.exists_cons (w : Word) : ∃ c rest, w.text = c :: rest ∧ isBlank c = false ∧
    (c = 92 → ∃ c' rest', rest = c' :: rest' ∧ c' ≠ 10 ∧ c' ≠ 13) ∧ (c = 58 → w.bytes.head? = some 58) := by
  obtain ⟨c, bytes, hbytes⟩ := exists_cons_of_ne_nil w.ne_nil
  have hplain := w.plain c (by rw [hbytes]; exact mem_cons_self)
  rw [Word.text, hbytes, flatMap_cons, escape]
  by_cases hescaped : c = 32 ∨ c = 35
  · rw [if_pos hescaped]
    exact ⟨92, c :: bytes.flatMap escape, rfl, rfl, fun _ => ⟨c, _, rfl, hplain.2.2.2.1, hplain.2.2.1⟩,
      fun h => absurd h (by decide)⟩
  · rw [if_neg hescaped]
    rw [not_or] at hescaped
    by_cases hdollar : c = 36
    · rw [if_pos hdollar]
      exact ⟨36, 36 :: bytes.flatMap escape, rfl, rfl, fun h => absurd h (by decide), fun h => absurd h (by decide)⟩
    · rw [if_neg hdollar]
      refine ⟨c, bytes.flatMap escape, rfl, ?_, fun h => absurd h hplain.2.2.2.2, fun h => by rw [h]; rfl⟩
      rw [isBlank, decide_eq_false hescaped.2, decide_eq_false hescaped.1, decide_eq_false hplain.2.1,
        decide_eq_false hplain.2.2.2.1, decide_eq_false hplain.2.2.1]
      rfl

/-! ## Parsing rules -/

section

variable {data : List UInt8}

/-- The parser ends from both states in the same way. -/
def SameEnd (data : List UInt8) (s t : State) : Prop :=
  ∀ result, Loop.Ends (turn data false) s result ↔ Loop.Ends (turn data false) t result

variable {s : State} {cur front stop : List UInt8} {n : Nat} {more : List Report}

theorem SameEnd.trans {t u : State} (h : SameEnd data s t) (h' : SameEnd data t u) : SameEnd data s u :=
  fun result => (h result).trans (h' result)

theorem sameEnd_turn {t : State} (h : turn data false s = .inr t) : SameEnd data s t := fun _ => Loop.ends_of_inr h

theorem skipWhitespaceAndComments_append {blanks : List UInt8} (h : ∀ b ∈ blanks, isBlank b = true)
    (rest : List UInt8) : skipWhitespaceAndComments (blanks ++ rest) = skipWhitespaceAndComments rest := by
  rw [skipWhitespaceAndComments_eq, skipWhitespaceAndComments_eq, dropWhile_append_of_pos h]

/-- What is skipped between rules makes no difference. -/
theorem sameEnd_blanks {blanks : List UInt8} (h : ∀ b ∈ blanks, isBlank b = true) (rest : List UInt8)
    (actions : List Action) : SameEnd data ⟨blanks ++ rest, false, actions⟩ ⟨rest, false, actions⟩ := by
  intro result
  refine Loop.ends_congr ?_
  show ruleTurn data ⟨blanks ++ rest, false, actions⟩ = ruleTurn data ⟨rest, false, actions⟩
  unfold ruleTurn
  simp only
  rw [skipWhitespaceAndComments_append h]

theorem gapEnd_of_cons {c : UInt8} {rest : List UInt8} (hblank : isBlank c = false)
    (hescape : c = 92 → ∃ c' rest', rest = c' :: rest' ∧ c' ≠ 10 ∧ c' ≠ 13) : GapEnd (c :: rest) := by
  refine ⟨?_, ?_, ?_⟩
  · intro c' hc' hspace
    cases hc'
    rcases hspace with rfl | rfl | rfl
    · cases hblank
    · cases hblank
    · cases hblank
  · intro rest' heq
    cases heq
    obtain ⟨c', _, heq', hc', -⟩ := hescape rfl
    exact hc' (List.cons.inj heq').1.symm
  · intro rest' heq
    cases heq
    obtain ⟨c', _, heq', -, hc'⟩ := hescape rfl
    exact hc' (List.cons.inj heq').1.symm

theorem Word.gapEnd (w : Word) (rest : List UInt8) : GapEnd (w.text ++ rest) := by
  obtain ⟨c, text, htext, hblank, hescape, -⟩ := w.exists_cons
  rw [htext, cons_append]
  refine gapEnd_of_cons hblank fun hc => ?_
  obtain ⟨c', text', rfl, hc'⟩ := hescape hc
  exact ⟨c', text' ++ rest, rfl, hc'⟩

theorem gap_break (b : Break) {gap : List UInt8} (h : Gap gap) : Gap (b.text ++ gap) := by
  cases b with
  | space => exact .blank (.inl rfl) h
  | continuation => exact .continuation h
  | crlfContinuation => exact .continuation' h

theorem Separator.gap (s : Separator) : Gap s.text := by
  refine gap_break s.first ?_
  induction s.more with
  | nil => exact .nil
  | cons b more ih => exact gap_break b ih

variable (r : Rule)

/-- The name of a rule, and its colon. -/
theorem sameEnd_target (rest : List UInt8) (actions : List Action) :
    SameEnd data ⟨r.text ++ rest, false, actions⟩ ⟨dependenciesText r.dependencies ++ rest, true,
      actions ++ [.actOnRuleStart r.target.text r.target.bytes]⟩ := by
  obtain ⟨c, text, htext, hblank, -, -⟩ := r.target.exists_cons
  have hcur : skipWhitespaceAndComments (r.text ++ rest) =
      r.target.text ++ 58 :: (dependenciesText r.dependencies ++ rest) := by
    rw [Rule.text, append_assoc, cons_append, skipWhitespaceAndComments_eq]
    conv_lhs => rw [htext, cons_append]
    rw [dropWhile_cons_of_neg (Bool.eq_false_iff.mp hblank), htext, cons_append]
  have hcolon : GapEnd (58 :: (dependenciesText r.dependencies ++ rest)) :=
    gapEnd_of_cons rfl fun h => absurd h (by decide)
  refine sameEnd_turn ?_
  rw [turn_of_not_inRule rfl]
  refine ruleTurn_rule hcur r.target.wordText ?_ (wordEnd_colon _) (skip_end hcolon)
  rw [htext]
  exact cons_ne_nil _ _

variable {rest : List UInt8}

/-- A dependency behind its separator, up to where its text ends. -/
theorem sameEnd_dependency (separator : Separator) (w : Dependency) {extra extraWord : List UInt8}
    (hextra : WordText extra extraWord) (hend : WordEnd rest) (hcolon : rest.head? ≠ some 58)
    (actions : List Action) :
    SameEnd data ⟨separator.text ++ (w.text ++ (extra ++ rest)), true, actions⟩
      ⟨rest, true, actions ++ [.actOnRuleDependency (w.text ++ extra) (w.bytes ++ extraWord)]⟩ := by
  obtain ⟨text, word, colons, more, hword, hne, hcolons, htext, hbytes⟩ := w.exists_text hextra
  have hcur : skipNonNewlineWhitespace (separator.text ++ (w.text ++ (extra ++ rest))) = text ++ (colons ++ rest) := by
    rw [skip_append separator.gap (w.gapEnd _), ← append_assoc w.text, htext, append_assoc]
  refine sameEnd_turn ?_
  rw [turn_of_inRule rfl, htext, hbytes]
  exact dependencyTurn_dependency hcur hword hne hcolons hend hcolon

theorem dependenciesText_cons (d : Separator × Dependency) (dependencies : List (Separator × Dependency)) :
    dependenciesText (d :: dependencies) = d.1.text ++ (d.2.text ++ dependenciesText dependencies) := by
  rw [dependenciesText, flatMap_cons, append_assoc]
  rfl

variable {dependencies : List (Separator × Dependency)}

/-- A separator that does not begin with a continuation with CRLF ends the word before it. -/
theorem wordEnd_dependencies
    (hplain : ∀ d ∈ dependencies.head?, d.1.first ≠ .crlfContinuation) (hend : WordEnd rest)
    (hcolon : rest.head? ≠ some 58) : WordEnd (dependenciesText dependencies ++ rest) ∧
      (dependenciesText dependencies ++ rest).head? ≠ some 58 := by
  cases dependencies with
  | nil => exact ⟨hend, hcolon⟩
  | cons d dependencies =>
    have hfirst := hplain d rfl
    rw [dependenciesText_cons, Separator.text]
    simp only [append_assoc]
    cases hbreak : d.1.first with
    | space => exact ⟨.char rfl fun h => absurd h (by decide), fun h => nomatch h⟩
    | continuation => exact ⟨.continuation _, fun h => nomatch h⟩
    | crlfContinuation => exact absurd hbreak hfirst

/-- The actions for dependencies. -/
def dependencyActions (dependencies : List (Separator × Dependency)) : List Action :=
  dependencies.map fun d => .actOnRuleDependency d.2.text d.2.bytes

theorem sameEnd_dependencies
    (hplain : ∀ d ∈ dependencies.tail, d.1.first ≠ .crlfContinuation) (hend : WordEnd rest)
    (hcolon : rest.head? ≠ some 58) (actions : List Action) :
    SameEnd data ⟨dependenciesText dependencies ++ rest, true, actions⟩
      ⟨rest, true, actions ++ dependencyActions dependencies⟩ := by
  induction dependencies generalizing actions with
  | nil =>
    intro result
    rw [dependencyActions, map_nil, append_nil]
    rfl
  | cons d dependencies ih =>
    rw [tail_cons] at hplain
    obtain ⟨hend', hcolon'⟩ :=
      wordEnd_dependencies (fun d' hd' => hplain d' (mem_of_mem_head? hd')) hend hcolon
    have hfirst : SameEnd data _ _ := sameEnd_dependency d.1 d.2 .nil hend' hcolon' actions
    have hrest := ih (fun d' hd' => hplain d' (mem_of_mem_tail hd'))
      (actions ++ [.actOnRuleDependency d.2.text d.2.bytes])
    rw [nil_append, append_nil, append_nil] at hfirst
    rw [dependenciesText_cons, append_assoc, append_assoc]
    rw [append_assoc] at hrest
    exact hfirst.trans hrest

/-- What may follow the text of a rule: the end of its line. -/
structure RuleEnd (rest : List UInt8) : Prop where
  wordEnd : WordEnd rest
  colon : rest.head? ≠ some 58
  line : skipNonNewlineWhitespace rest = [] ∨ (skipNonNewlineWhitespace rest).head? = some 10

def Rule.actions : List Action :=
  .actOnRuleStart r.target.text r.target.bytes :: (dependencyActions r.dependencies ++ [.actOnRuleEnd])

theorem Rule.report_actions : r.actions.map Action.report = r.reports := by
  rw [Rule.actions, Rule.reports, map_cons, map_append, dependencyActions, map_map]
  rfl

theorem sameEnd_rule {r : Rule} (h : r.Plain) (hrest : RuleEnd rest) (actions : List Action) :
    SameEnd data ⟨r.text ++ rest, false, actions⟩ ⟨skipNonNewlineWhitespace rest, false, actions ++ r.actions⟩ := by
  refine (sameEnd_target r rest actions).trans ((sameEnd_dependencies h hrest.wordEnd hrest.colon _).trans ?_)
  have hturn : turn data false ⟨rest, true, actions ++ [.actOnRuleStart r.target.text r.target.bytes] ++
      dependencyActions r.dependencies⟩ = .inr ⟨skipNonNewlineWhitespace rest, false, actions ++ r.actions⟩ := by
    rw [turn_of_inRule rfl, dependencyTurn_end hrest.line, if_neg Bool.false_ne_true, Rule.actions]
    simp only [append_assoc, cons_append, nil_append]
  exact sameEnd_turn hturn

theorem ruleEnd_nil : RuleEnd [] := ⟨.nil, fun h => (nomatch h), .inl rfl⟩

theorem skip_lineEnd (e : LineEnd) (rest : List UInt8) : skipNonNewlineWhitespace (e.text ++ rest) = 10 :: rest := by
  have hline : GapEnd (10 :: rest) := by
    refine ⟨?_, (fun rest' h => nomatch h), (fun rest' h => nomatch h)⟩
    intro c hc hspace
    cases hc
    exact absurd hspace (by decide)
  cases e with
  | lf => exact skip_end hline
  | crlf =>
    show skipNonNewlineWhitespace (13 :: 10 :: rest) = _
    rw [skip_blank (.inr (.inr rfl)), skip_end hline]

theorem ruleEnd_lineEnd (e : LineEnd) (rest : List UInt8) : RuleEnd (e.text ++ rest) := by
  refine ⟨?_, ?_, ?_⟩
  · cases e with
    | lf | crlf => exact .char rfl fun h => absurd h (by decide)
  · cases e with
    | lf | crlf => exact fun h => nomatch h
  · rw [skip_lineEnd]
    exact .inr rfl

theorem sameEnd_ruleLine {r : Rule} (h : r.Plain) (e : LineEnd) (rest : List UInt8) (actions : List Action) :
    SameEnd data ⟨r.text ++ (e.text ++ rest), false, actions⟩ ⟨rest, false, actions ++ r.actions⟩ := by
  have hrule : SameEnd data _ _ := sameEnd_rule h (ruleEnd_lineEnd e rest) actions
  rw [skip_lineEnd] at hrule
  refine hrule.trans ?_
  have hblank : ∀ b ∈ [(10 : UInt8)], isBlank b = true := forall_mem_singleton.mpr rfl
  exact sameEnd_blanks hblank rest _

theorem sameEnd_comment {c : Comment} (h : ∀ b ∈ c.text, isBlank b = true) (e : LineEnd) (rest : List UInt8)
    (actions : List Action) :
    SameEnd data ⟨35 :: c.text ++ (e.text ++ rest), false, actions⟩ ⟨rest, false, actions⟩ := by
  rw [← append_assoc]
  refine sameEnd_blanks ?_ rest actions
  intro b hb
  rcases mem_append.mp hb with hb | hb
  · rcases mem_cons.mp hb with rfl | hb
    · rfl
    · exact h b hb
  · cases e with
    | lf =>
      obtain rfl := mem_singleton.mp hb
      rfl
    | crlf =>
      have hline : ∀ b ∈ [(13 : UInt8), 10], isBlank b = true :=
        forall_mem_cons.mpr ⟨rfl, forall_mem_singleton.mpr rfl⟩
      exact hline b hb

theorem linesText_cons (l : Line × LineEnd) (lines : List (Line × LineEnd)) (last : Option Rule) :
    linesText (l :: lines) last = l.1.text ++ (l.2.text ++ linesText lines last) := by
  rw [linesText, flatMap_cons, append_assoc, append_assoc, linesText]

def Line.actions : Line → List Action
  | .rule r => r.actions
  | .comment _ => []

theorem Line.report_actions (l : Line) : l.actions.map Action.report = l.reports := by
  cases l with
  | rule r => exact r.report_actions
  | comment c => rfl

/-- A plain line is parsed as it is meant. -/
theorem sameEnd_line {l : Line × LineEnd} (h : l.1.Plain) (rest : List UInt8) (actions : List Action) :
    SameEnd data ⟨l.1.text ++ (l.2.text ++ rest), false, actions⟩ ⟨rest, false, actions ++ l.1.actions⟩ := by
  obtain ⟨line, e⟩ := l
  cases line with
  | rule r => exact sameEnd_ruleLine h e rest actions
  | comment c =>
    rw [Line.actions, append_nil]
    exact sameEnd_comment h e rest actions

/-- Behind the last line the parser is done. -/
theorem ends_nil {actions : List Action} {result : Option (List Action)} :
    Loop.Ends (turn data false) ⟨[], false, actions⟩ result ↔ result = some actions :=
  Loop.ends_of_inl rfl

/-- All the lines of a plain file are parsed as they are meant. -/
theorem ends_plain {lines : List (Line × LineEnd)} {last : Option Rule} (h : PlainLines lines last)
    (actions : List Action) : ∃ result, Loop.Ends (turn data false) ⟨linesText lines last, false, actions⟩ (some result) ∧
      result.map Action.report = actions.map Action.report ++ linesReports lines last := by
  induction lines generalizing actions with
  | nil =>
    cases last with
    | none =>
      refine ⟨actions, ends_nil.mpr rfl, ?_⟩
      rw [linesReports, flatMap_nil]
      exact (append_nil _).symm
    | some r =>
      have hrule : SameEnd data _ _ := sameEnd_rule (h.last r rfl) ruleEnd_nil actions
      rw [append_nil] at hrule
      refine ⟨actions ++ r.actions, (hrule _).mpr (ends_nil.mpr rfl), ?_⟩
      rw [map_append, r.report_actions]
      rfl
  | cons l lines ih =>
    have hplain : PlainLines lines last := ⟨fun l' hl' => h.lines l' (mem_cons_of_mem l hl'), h.last⟩
    obtain ⟨result, hends, hreport⟩ := ih hplain (actions ++ l.1.actions)
    rw [linesText_cons]
    refine ⟨result, (sameEnd_line (h.lines l mem_cons_self) _ _ _).mpr hends, ?_⟩
    rw [hreport, map_append, l.1.report_actions, linesReports, linesReports, flatMap_cons]
    simp only [append_assoc]

/-! ## Where words start

A word of a rule starts behind a line end or a space that is not escaped, and the parser, wherever it stands before,
starts a word there, too. So it reports no fewer words than follow in the data, or an error.
-/

/-- A byte that ends every word, behind some text. -/
def Breaks (front : List UInt8) (b : UInt8) : Prop := b = 10 ∨ (b = 32 ∧ front.getLast? ≠ some 92)

theorem Breaks.of_append (front : List UInt8) {front' : List UInt8} {b : UInt8} (h : Breaks (front ++ front') b) :
    Breaks front' b := by
  rcases h with hline | ⟨hspace, hlast⟩
  · exact .inl hline
  · refine .inr ⟨hspace, fun hlast' => hlast ?_⟩
    exact getLast_of_append front hlast'

/-- What only a word, or an error, starts with. -/
structure Solid (cur : List UInt8) : Prop where
  head : ∃ c rest, cur = c :: rest ∧ isBlank c = false ∧ c ≠ 58
  gapEnd : GapEnd cur

/-- A number of words that start in the data, behind breaks. -/
inductive Starts : Nat → List UInt8 → Prop
  | zero (cur : List UInt8) : Starts 0 cur
  | succ {n front cur b} (hbreak : Breaks front b) (hsolid : Solid cur)
      (h : Starts n cur) : Starts (n + 1) (front ++ b :: cur)

/-- The same, with a word that starts at once. -/
def Here (n : Nat) (cur : List UInt8) : Prop := Starts n cur ∨ (Solid cur ∧ ∃ m, n = m + 1 ∧ Starts m cur)

/-- More text before the data. -/
theorem Starts.append (h : Starts n cur) (hfront : front.getLast? ≠ some 92 ∨ cur.head? = some 10) :
    Starts n (front ++ cur) := by
  cases h with
  | zero => exact .zero _
  | @succ n front' cur b hbreak hsolid h =>
    rw [← append_assoc]
    refine .succ ?_ hsolid h
    rcases hbreak with hline | ⟨hspace, hlast⟩
    · exact .inl hline
    · refine .inr ⟨hspace, ?_⟩
      cases front' with
      | nil =>
        rw [append_nil]
        refine hfront.resolve_right fun hhead => ?_
        rw [nil_append, head?_cons, hspace] at hhead
        exact absurd (Option.some.inj hhead) (by decide)
      | cons c front' =>
        rw [getLast?_append_of_ne_nil _ (cons_ne_nil c front')]
        exact hlast

theorem Starts.pred (h : Starts (n + 1) cur) : Starts n cur := by
  induction n generalizing cur with
  | zero => exact .zero cur
  | succ n ih =>
    cases h with
    | succ hbreak hsolid h => exact .succ hbreak hsolid (ih h)

theorem Here.starts (h : Here n cur) : Starts (n - 1) cur := by
  rcases h with h | ⟨-, m, rfl, h⟩
  · cases n with
    | zero => exact h
    | succ n => exact h.pred
  · exact h

/-- Text of a word does not go over a break. -/
theorem break_of_wordText {text word : List UInt8} (hword : WordText text word) {b : UInt8}
    (heq : text ++ stop = front ++ b :: cur) (hbreak : Breaks front b) :
    ∃ front', stop = front' ++ b :: cur ∧ Breaks front' b := by
  have hne : ∀ {c : UInt8} {front : List UInt8}, Breaks front c → isWordChar c = false ∧ c ≠ 92 ∧ c ≠ 36 := by
    rintro c front (rfl | ⟨rfl, -⟩)
    · exact ⟨rfl, by decide, by decide⟩
    · exact ⟨rfl, by decide, by decide⟩
  induction hword generalizing front with
  | nil => exact ⟨front, heq, hbreak⟩
  | @escape c text word hc _ ih =>
    rcases front with _ | ⟨c₁, _ | ⟨c₂, front⟩⟩
    · exact absurd (List.cons.inj heq).1.symm (hne hbreak).2.1
    · obtain ⟨rfl, heq'⟩ := List.cons.inj heq
      obtain ⟨rfl, -⟩ := List.cons.inj heq'
      rcases hbreak with hline | ⟨-, hlast⟩
      · exact absurd hline hc
      · exact absurd rfl hlast
    · obtain ⟨rfl, heq'⟩ := List.cons.inj heq
      obtain ⟨rfl, heq''⟩ := List.cons.inj heq'
      exact ih heq'' (Breaks.of_append [92, c] hbreak)
  | @dollar text word _ ih =>
    rcases front with _ | ⟨c₁, _ | ⟨c₂, front⟩⟩
    · exact absurd (List.cons.inj heq).1.symm (hne hbreak).2.2
    · obtain ⟨rfl, heq'⟩ := List.cons.inj heq
      exact absurd (List.cons.inj heq').1.symm (hne hbreak).2.2
    · obtain ⟨rfl, heq'⟩ := List.cons.inj heq
      obtain ⟨rfl, heq''⟩ := List.cons.inj heq'
      exact ih heq'' (Breaks.of_append [36, 36] hbreak)
  | @char c text word hc _ _ ih =>
    rcases front with _ | ⟨c₁, front⟩
    · obtain ⟨rfl, -⟩ := List.cons.inj heq
      rw [(hne hbreak).1] at hc
      cases hc
    · obtain ⟨rfl, heq'⟩ := List.cons.inj heq
      exact ih heq' (Breaks.of_append [c] hbreak)

theorem Starts.of_wordText {text word : List UInt8} (hword : WordText text word) (h : Starts n (text ++ stop)) :
    Starts n stop := by
  generalize heq : text ++ stop = cur at h
  cases h with
  | zero => exact .zero stop
  | succ hbreak hsolid h =>
    obtain ⟨front', rfl, hbreak'⟩ := break_of_wordText hword heq hbreak
    exact .succ hbreak' hsolid h

theorem Starts.of_colon (h : Starts n (58 :: rest)) : Starts n rest := by
  generalize heq : 58 :: rest = cur at h
  cases h with
  | zero => exact .zero rest
  | @succ n front cur b hbreak hsolid h =>
    cases front with
    | nil =>
      obtain ⟨rfl, -⟩ := List.cons.inj heq
      rcases hbreak with hline | ⟨hspace, -⟩
      · exact absurd hline (by decide)
      · exact absurd hspace (by decide)
    | cons c front =>
      cases heq
      exact .succ (Breaks.of_append [58] hbreak) hsolid h

theorem Starts.of_colonsText {colons more : List UInt8} (hcolons : ColonsText colons more)
    (h : Starts n (colons ++ stop)) : Starts n stop := by
  induction hcolons with
  | nil => exact h
  | colon hword _ ih =>
    rw [cons_append, append_assoc] at h
    exact ih (h.of_colon.of_wordText hword)

/-- Skipping between rules comes to the start of a word, or stops before its break. -/
theorem Here.skipWhitespace (h : Here n cur) :
    Here n (skipWhitespaceAndComments cur) := by
  rw [skipWhitespaceAndComments_eq]
  rcases h with h | ⟨hsolid, m, rfl, h⟩
  · cases h with
    | zero => exact .inl (.zero _)
    | @succ n front cur b hbreak hsolid h =>
      obtain ⟨c, rest, rfl, hblank, -⟩ := hsolid.head
      have hb : isBlank b = true := by
        rcases hbreak with rfl | ⟨rfl, -⟩
        · rfl
        · rfl
      induction front with
      | nil =>
        rw [nil_append, dropWhile_cons_of_pos hb,
          dropWhile_cons_of_neg (Bool.eq_false_iff.mp hblank)]
        exact .inr ⟨hsolid, n, rfl, h⟩
      | cons c' front ih =>
        by_cases hc' : isBlank c' = true
        · rw [cons_append, dropWhile_cons_of_pos hc']
          exact ih (Breaks.of_append [c'] hbreak)
        · rw [cons_append, dropWhile_cons_of_neg hc']
          exact .inl (.succ hbreak hsolid h)
  · obtain ⟨c, rest, rfl, hblank, -⟩ := hsolid.head
    rw [dropWhile_cons_of_neg (Bool.eq_false_iff.mp hblank)]
    exact .inr ⟨hsolid, m, rfl, h⟩

/-- So does skipping within a rule. -/
theorem Here.skipNonNewline (h : Here n cur) :
    Here n (skipNonNewlineWhitespace cur) := by
  rcases h with h | ⟨hsolid, m, rfl, h⟩
  · cases h with
    | zero => exact .inl (.zero _)
    | @succ n front cur b hbreak hsolid h =>
      obtain ⟨gap, hgap, hend, heq⟩ := skip_cases (front ++ b :: cur)
      generalize skipNonNewlineWhitespace (front ++ b :: cur) = stop at hend heq ⊢
      -- A gap that starts where a word starts is empty.
      have hstart : ∀ {gap : List UInt8}, Gap gap → cur = gap ++ stop → Here (n + 1) stop := by
        intro gap hgap heq
        cases hgap with
        | nil =>
          obtain rfl : cur = stop := heq
          exact .inr ⟨hsolid, n, rfl, h⟩
        | blank hc _ => exact absurd hc (hsolid.gapEnd.blank _ (by rw [heq]; rfl))
        | continuation _ => exact absurd heq (hsolid.gapEnd.continuation _)
        | continuation' _ => exact absurd heq (hsolid.gapEnd.continuation' _)
      have hne : ∀ {front : List UInt8}, Breaks front b → b ≠ 92 ∧ b ≠ 13 := by
        rintro front (rfl | ⟨rfl, -⟩)
        · exact ⟨by decide, by decide⟩
        · exact ⟨by decide, by decide⟩
      induction hgap generalizing front with
      | nil =>
        rw [nil_append] at heq
        rw [← heq]
        exact .inl (.succ hbreak hsolid h)
      | @blank c gap hc hgap ih =>
        cases front with
        | nil => exact hstart hgap (List.cons.inj heq).2
        | cons c' front =>
          obtain ⟨rfl, heq'⟩ := List.cons.inj heq
          exact ih (Breaks.of_append [c'] hbreak) heq'
      | @continuation gap hgap ih =>
        rcases front with _ | ⟨c₁, _ | ⟨c₂, front⟩⟩
        · exact absurd (List.cons.inj heq).1 (hne hbreak).1
        · exact hstart hgap (List.cons.inj (List.cons.inj heq).2).2
        · obtain ⟨rfl, heq'⟩ := List.cons.inj heq
          obtain ⟨rfl, heq''⟩ := List.cons.inj heq'
          exact ih (Breaks.of_append [92, 10] hbreak) heq''
      | @continuation' gap hgap ih =>
        rcases front with _ | ⟨c₁, _ | ⟨c₂, _ | ⟨c₃, front⟩⟩⟩
        · exact absurd (List.cons.inj heq).1 (hne hbreak).1
        · exact absurd (List.cons.inj (List.cons.inj heq).2).1 (hne hbreak).2
        · exact hstart hgap (List.cons.inj (List.cons.inj (List.cons.inj heq).2).2).2
        · obtain ⟨rfl, heq'⟩ := List.cons.inj heq
          obtain ⟨rfl, heq''⟩ := List.cons.inj heq'
          obtain ⟨rfl, heq'''⟩ := List.cons.inj heq''
          exact ih (Breaks.of_append [92, 13, 10] hbreak) heq'''
  · rw [skip_end hsolid.gapEnd]
    exact .inr ⟨hsolid, m, rfl, h⟩

theorem Here.eq_zero (h : Here n []) : n = 0 := by
  rcases h with h | ⟨hsolid, -⟩
  · generalize heq : ([] : List UInt8) = cur at h
    cases h with
    | zero => rfl
    | succ _ _ _ => exact absurd heq.symm (append_ne_nil_of_right_ne_nil _ (cons_ne_nil _ _))
  · obtain ⟨c, rest, heq, -⟩ := hsolid.head
    cases heq

theorem Here.of_colon (h : Here n (58 :: rest)) : Here n rest := by
  rcases h with h | ⟨hsolid, -⟩
  · exact .inl h.of_colon
  · obtain ⟨c, rest', heq, -, hcolon⟩ := hsolid.head
    exact absurd (List.cons.inj heq).1.symm hcolon

variable {result : List Action}

/-- What has been reported stays reported. -/
theorem prefix_of_ends (h : Loop.Ends (turn data false) s (some result)) :
    s.actions <+: result := by
  obtain ⟨fuel, hrun⟩ := h
  induction fuel generalizing s with
  | zero => cases hrun
  | succ fuel ih =>
    cases hturn : turn data false s with
    | inl outcome =>
      rw [Loop.run_of_inl hturn] at hrun
      cases hrun
      cases step_of_turn hturn with
      | done _ _ => exact prefix_rfl
      | ignored _ _ _ => exact prefix_append _ _
    | inr t =>
      rw [Loop.run_of_inr hturn] at hrun
      refine List.IsPrefix.trans ?_ (ih hrun)
      cases step_of_turn hturn with
      | unexpected _ _ _ | rule _ _ _ _ _ _ | missing _ _ _ _ _ _ | ruleEnd _ _ _ | unexpectedDependency _ _ _
      | dependency _ _ _ _ _ _ _ => exact prefix_append _ _

theorem noError_of_ends (h : Loop.Ends (turn data false) s (some result))
    (herror : .error ∉ result.map Action.report) (message : String) (place : Nat) :
    .error message place ∉ s.actions := fun hmem => herror (mem_map.mpr ⟨_, (prefix_of_ends h).subset hmem, rfl⟩)

def Report.isWord : Report → Bool
  | .ruleStart _ => true
  | .dependency _ => true
  | _ => false

/-- The number of words that are reported. -/
def wordCount (actions : List Action) : Nat := (actions.map Action.report).countP Report.isWord

theorem wordCount_concat {a : Action} (h : a.report.isWord = true) (actions : List Action) :
    wordCount (actions ++ [a]) = wordCount actions + 1 := by
  rw [wordCount, map_append, countP_append, wordCount, map_singleton, countP_singleton, if_pos h]

theorem wordCount_ruleEnd (actions : List Action) : wordCount (actions ++ [.actOnRuleEnd]) = wordCount actions := by
  rw [wordCount, map_append, countP_append, wordCount]
  rfl

/-- Without an error, no fewer words are reported than start in the data. -/
theorem wordCount_le (h : Loop.Ends (turn data false) s (some result))
    (herror : .error ∉ result.map Action.report) (hhere : Here n s.cur) :
    wordCount s.actions + n ≤ wordCount result := by
  obtain ⟨fuel, hrun⟩ := h
  induction fuel generalizing s n with
  | zero => cases hrun
  | succ fuel ih =>
    cases hturn : turn data false s with
    | inl outcome =>
      rw [Loop.run_of_inl hturn] at hrun
      cases hrun
      cases step_of_turn hturn with
      | done _ hnil =>
        have hzero := hhere.skipWhitespace
        rw [hnil] at hzero
        rw [hzero.eq_zero]
        exact Nat.le_refl _
      | ignored _ _ hignore => cases hignore
    | inr t =>
      rw [Loop.run_of_inr hturn] at hrun
      have hends : Loop.Ends (turn data false) t (some result) := ⟨fuel, hrun⟩
      cases step_of_turn hturn with
      | unexpected _ _ _ | unexpectedDependency _ _ _ =>
        exact absurd (mem_append_right _ mem_cons_self) (noError_of_ends hends herror _ _)
      | @rule text word stop rest _ hcur hword _ _ hcolon =>
        have hrest := hhere.skipWhitespace
        rw [hcur] at hrest
        have hstop : Here (n - 1) stop := .inl (hrest.starts.of_wordText hword)
        have hnext := hstop.skipNonNewline
        rw [hcolon] at hnext
        have hle := ih hnext.of_colon hrun
        rw [wordCount_concat rfl] at hle
        omega
      | @missing _ _ stop _ _ _ _ _ _ =>
        refine absurd ?_ (noError_of_ends hends herror "missing ':' following rule" (position data (skipNonNewlineWhitespace stop)))
        exact mem_append_right _ (mem_cons_of_mem _ mem_cons_self)
      | ruleEnd _ _ _ =>
        have hle := ih hhere.skipNonNewline hrun
        rw [wordCount_ruleEnd] at hle
        exact hle
      | @dependency text word colons more stop _ hcur hword _ hcolons _ _ =>
        have hrest := hhere.skipNonNewline
        rw [hcur] at hrest
        have hstop : Here (n - 1) stop := .inl ((hrest.starts.of_wordText hword).of_colonsText hcolons)
        have hle := ih hstop hrun
        rw [wordCount_concat rfl] at hle
        omega

/-! ## Words of a file -/

theorem Word.getLast_text (w : Word) : w.text.getLast? ≠ some 92 := by
  obtain ⟨front, c, hbytes⟩ : ∃ front c, w.bytes = front ++ [c] :=
    ⟨w.bytes.dropLast, w.bytes.getLast w.ne_nil, (dropLast_concat_getLast w.ne_nil).symm⟩
  have hplain := w.plain c (by rw [hbytes]; exact mem_append_right _ mem_cons_self)
  rw [Word.text, hbytes, flatMap_append, flatMap_singleton, escape]
  split_ifs with hescaped hdollar
  · rw [getLast?_append_of_ne_nil _ (cons_ne_nil _ _)]
    exact fun h => hplain.2.2.2.2 (Option.some.inj h)
  · rw [getLast?_append_of_ne_nil _ (cons_ne_nil _ _)]
    exact fun h => absurd (Option.some.inj h) (by decide)
  · rw [getLast?_append_of_ne_nil _ (cons_ne_nil _ _)]
    exact fun h => hplain.2.2.2.2 (Option.some.inj h)

theorem Word.solid (w : Word) (h : w.bytes.head? ≠ some 58) (rest : List UInt8) : Solid (w.text ++ rest) := by
  obtain ⟨c, text, htext, hblank, -, hcolon⟩ := w.exists_cons
  refine ⟨⟨c, text ++ rest, ?_, hblank, fun hc => h (hcolon hc)⟩, w.gapEnd rest⟩
  rw [htext, cons_append]

theorem Target.head (w : Target) : w.bytes.head? ≠ some 58 := fun h => w.noColon (mem_of_mem_head? h)

theorem Break.getLast_text (b : Break) (front : List UInt8) : (front ++ b.text).getLast? ≠ some 92 := by
  rw [getLast?_append]
  cases b with
  | space | continuation | crlfContinuation => exact fun h => absurd (Option.some.inj h) (by decide)

/-- A separator ends with a break. -/
theorem Separator.breaks (s : Separator) (h : front.getLast? ≠ some 92) :
    ∃ text b, s.text = text ++ [b] ∧ Breaks (front ++ text) b := by
  obtain ⟨first, more⟩ := s
  rw [Separator.text]
  induction more generalizing first front with
  | nil =>
    rw [flatMap_nil, append_nil]
    cases first with
    | space => exact ⟨[], 32, rfl, .inr ⟨rfl, by rw [append_nil]; exact h⟩⟩
    | continuation => exact ⟨[92], 10, rfl, .inl rfl⟩
    | crlfContinuation => exact ⟨[92, 13], 10, rfl, .inl rfl⟩
  | cons second more ih =>
    obtain ⟨text, b, htext, hbreaks⟩ := ih (first.getLast_text front) second
    refine ⟨first.text ++ text, b, ?_, ?_⟩
    · rw [append_assoc, ← htext]
      rfl
    · rw [← append_assoc]
      exact hbreaks

/-- Each dependency starts behind its separator. -/
theorem starts_dependencies (hrest : ∀ front, Starts n (front ++ rest))
    (dependencies : List (Separator × Dependency)) (h : front.getLast? ≠ some 92) :
    Starts (dependencies.length + n) (front ++ (dependenciesText dependencies ++ rest)) := by
  induction dependencies generalizing front with
  | nil =>
    rw [length_nil, Nat.zero_add]
    exact hrest front
  | cons d dependencies ih =>
    obtain ⟨text, b, htext, hbreaks⟩ := d.1.breaks h
    have hdata : front ++ (dependenciesText (d :: dependencies) ++ rest) =
        (front ++ text) ++ b :: (d.2.text ++ (dependenciesText dependencies ++ rest)) := by
      rw [dependenciesText_cons, htext]
      simp only [append_assoc, cons_append, nil_append]
    rw [hdata, length_cons, Nat.add_right_comm]
    exact .succ hbreaks (d.2.solid d.2.head _) (ih d.2.getLast_text)

theorem starts_rule (hrest : ∀ front, Starts n (front ++ rest)) (r : Rule) :
    Starts (r.dependencies.length + n + 1) (10 :: (r.text ++ rest)) := by
  have hdata : 10 :: (r.text ++ rest) =
      [] ++ 10 :: (r.target.text ++ (58 :: (dependenciesText r.dependencies ++ rest))) := by
    rw [Rule.text, append_assoc, cons_append, nil_append]
  have hcolon : (r.target.text ++ [58]).getLast? ≠ some 92 := by
    rw [getLast?_concat]
    decide
  have hstarts := starts_dependencies hrest r.dependencies hcolon
  rw [append_assoc, singleton_append] at hstarts
  rw [hdata]
  exact .succ (.inl rfl) (r.target.solid r.target.head _) hstarts

theorem starts_lineEnd (h : Starts n (10 :: rest)) (e : LineEnd) (front : List UInt8) :
    Starts n (front ++ (e.text ++ rest)) := by
  cases e with
  | lf => exact h.append (.inr rfl)
  | crlf =>
    have hfront : Starts n ((front ++ [13]) ++ 10 :: rest) := h.append (.inr rfl)
    rw [append_assoc] at hfront
    exact hfront

theorem countP_reports : r.reports.countP Report.isWord = r.dependencies.length + 1 := by
  have hdependencies : ∀ dependencies : List (Separator × Dependency),
      (dependencies.map fun d => Report.dependency d.2.bytes).countP Report.isWord = dependencies.length := by
    intro dependencies
    rw [countP_eq_length.mpr, length_map]
    intro report hreport
    obtain ⟨d, -, rfl⟩ := mem_map.mp hreport
    rfl
  rw [Rule.reports, cons_append, countP_cons_of_pos rfl, countP_append, hdependencies]
  rfl

/-- Behind a line end, all the words of the lines start. -/
theorem starts_lines (lines : List (Line × LineEnd)) (last : Option Rule) :
    Starts ((linesReports lines last).countP Report.isWord) (10 :: linesText lines last) := by
  induction lines with
  | nil =>
    cases last with
    | none => exact .zero _
    | some r =>
      have hrule := starts_rule (fun front => Starts.zero (front ++ [])) r
      rw [append_nil, Nat.add_zero] at hrule
      have hcount : (linesReports [] (some r)).countP Report.isWord = r.dependencies.length + 1 := countP_reports r
      rw [hcount]
      exact hrule
  | cons l lines ih =>
    obtain ⟨line, e⟩ := l
    have hcount : (linesReports ((line, e) :: lines) last).countP Report.isWord =
        line.reports.countP Report.isWord + (linesReports lines last).countP Report.isWord := by
      rw [linesReports, flatMap_cons, append_assoc, countP_append]
      rfl
    rw [hcount, linesText_cons]
    cases line with
    | rule r =>
      have hrule := starts_rule (starts_lineEnd ih e) r
      rw [Line.reports, countP_reports, Nat.add_right_comm]
      exact hrule
    | comment c =>
      rw [Line.reports, countP_nil, Nat.zero_add]
      exact starts_lineEnd ih e (10 :: 35 :: c.text)

/-! ## Files that are recovered -/

variable {actions result : List Action}

/-- A report that another one stands in the place of. -/
theorem eq_of_prefix {a : Action} {report : Report} (h : actions ++ [a] <+: result)
    (hreport : result.map Action.report = actions.map Action.report ++ report :: more) :
    a.report = report := by
  obtain ⟨rest, rfl⟩ := h
  rw [map_append, map_append, append_assoc] at hreport
  exact (List.cons.inj (append_cancel_left hreport)).1

/-- A continuation with CRLF right behind a dependency becomes part of it. -/
theorem dependencies_plain {dependencies : List (Separator × Dependency)} (hrest : RuleEnd rest)
    (hends : Loop.Ends (turn data false) ⟨dependenciesText dependencies ++ rest, true, actions⟩ (some result))
    (hreport : result.map Action.report =
      actions.map Action.report ++ ((dependencies.map fun d => .dependency d.2.bytes) ++ more)) :
    ∀ d ∈ dependencies.tail, d.1.first ≠ .crlfContinuation := by
  induction dependencies generalizing actions with
  | nil => exact fun d hd => nomatch hd
  | cons d dependencies ih =>
    rw [map_cons, cons_append] at hreport
    rw [dependenciesText_cons, append_assoc, append_assoc] at hends
    rw [tail_cons]
    cases dependencies with
    | nil => exact fun d hd => nomatch hd
    | cons d' dependencies =>
      by_cases hcrlf : d'.1.first = .crlfContinuation
      · exfalso
        have hextra : WordText [92, 13] [92, 13] := .escape (by decide) .nil
        have htext : dependenciesText (d' :: dependencies) ++ rest = [92, 13] ++ 10 ::
            (d'.1.more.flatMap Break.text ++ (d'.2.text ++ (dependenciesText dependencies ++ rest))) := by
          rw [dependenciesText_cons, Separator.text, hcrlf]
          simp only [append_assoc]
          rfl
        rw [htext] at hends
        have hline : WordEnd (10 :: (d'.1.more.flatMap Break.text ++
            (d'.2.text ++ (dependenciesText dependencies ++ rest)))) := .char rfl fun h => absurd h (by decide)
        have hends' := (sameEnd_dependency d.1 d.2 hextra hline (fun h => nomatch h) actions _).mp hends
        have hword := eq_of_prefix (prefix_of_ends hends') hreport
        have hlength := congrArg List.length (Report.dependency.inj hword)
        rw [length_append] at hlength
        exact absurd hlength (by simp)
      · have hfirst : ∀ d'' ∈ (d' :: dependencies).head?, d''.1.first ≠ .crlfContinuation := by
          intro d'' hd''
          cases hd''
          exact hcrlf
        obtain ⟨hend, hcolon⟩ := wordEnd_dependencies hfirst hrest.wordEnd hrest.colon
        have hends' := (sameEnd_dependency d.1 d.2 .nil hend hcolon actions _).mp hends
        rw [append_nil, append_nil] at hends'
        have htail := ih hends' (by rw [hreport, map_append, append_assoc]; rfl)
        intro d'' hd''
        rcases mem_cons.mp hd'' with rfl | hmem
        · exact hcrlf
        · exact htail d'' hmem

theorem rule_plain {r : Rule} (hrest : RuleEnd rest)
    (hends : Loop.Ends (turn data false) ⟨r.text ++ rest, false, actions⟩ (some result))
    (hreport : result.map Action.report = actions.map Action.report ++ (r.reports ++ more)) : r.Plain := by
  have hends' := (sameEnd_target r rest actions _).mp hends
  have hreport' : result.map Action.report =
      (actions ++ [Action.actOnRuleStart r.target.text r.target.bytes]).map Action.report ++
        ((r.dependencies.map fun d => .dependency d.2.bytes) ++ .ruleEnd :: more) := by
    rw [hreport, Rule.reports, map_append]
    simp only [append_assoc, cons_append]
    rfl
  exact dependencies_plain hrest hends' hreport'

/-- A comment with text in it is read as a rule, or as an error. -/
theorem comment_plain {c : Comment} {e : LineEnd} {lines : List (Line × LineEnd)} {last : Option Rule}
    (hends : Loop.Ends (turn data false)
      ⟨35 :: c.text ++ (e.text ++ linesText lines last), false, actions⟩ (some result))
    (herror : .error ∉ result.map Action.report)
    (hreport : result.map Action.report = actions.map Action.report ++ linesReports lines last) :
    ∀ b ∈ c.text, isBlank b = true := by
  by_contra hnot
  have hcount : wordCount result = wordCount actions + (linesReports lines last).countP Report.isWord := by
    rw [wordCount, hreport, countP_append]
    rfl
  have hskip : ∃ front, front ≠ [] ∧ skipWhitespaceAndComments (35 :: c.text ++ (e.text ++ linesText lines last)) =
      front ++ (e.text ++ linesText lines last) := by
    have hne : c.text.dropWhile isBlank ≠ [] := fun hnil => hnot (dropWhile_eq_nil_iff.mp hnil)
    refine ⟨c.text.dropWhile isBlank, hne, ?_⟩
    rw [skipWhitespaceAndComments_eq, cons_append, dropWhile_cons_of_pos rfl, dropWhile_append,
      if_neg]
    rw [List.isEmpty_iff]
    exact hne
  obtain ⟨front, hne, hskip⟩ := hskip
  have hstarts := starts_lineEnd (starts_lines lines last) e front
  cases hturn : turn data false ⟨35 :: c.text ++ (e.text ++ linesText lines last), false, actions⟩ with
  | inl outcome =>
    rw [Loop.ends_of_inl hturn] at hends
    obtain rfl := hends
    cases step_of_turn hturn with
    | done _ hnil => exact absurd (hskip.symm.trans hnil) (append_ne_nil_of_left_ne_nil hne _)
    | ignored _ _ hignore => cases hignore
  | inr t =>
    rw [Loop.ends_of_inr hturn] at hends
    cases step_of_turn hturn with
    | unexpected _ _ _ =>
      exact absurd (mem_append_right _ mem_cons_self) (noError_of_ends hends herror _ _)
    | @rule text word stop rest _ hcur hword _ _ hcolon =>
      rw [← hskip, hcur] at hstarts
      have hstop : Here _ stop := .inl (hstarts.of_wordText hword)
      have hrest := hstop.skipNonNewline
      rw [hcolon] at hrest
      have hle := wordCount_le hends herror hrest.of_colon
      change wordCount (actions ++ [.actOnRuleStart text word]) + _ ≤ _ at hle
      rw [wordCount_concat rfl] at hle
      omega
    | @missing _ _ stop _ _ _ _ _ _ =>
      refine absurd ?_ (noError_of_ends hends herror "missing ':' following rule" (position data (skipNonNewlineWhitespace stop)))
      exact mem_append_right _ (mem_cons_of_mem _ mem_cons_self)
    | ruleEnd hinRule _ _ | unexpectedDependency hinRule _ _ | dependency hinRule _ _ _ _ _ _ => cases hinRule

theorem plain_of_ends {lines : List (Line × LineEnd)} {last : Option Rule}
    (hends : Loop.Ends (turn data false) ⟨linesText lines last, false, actions⟩ (some result))
    (herror : .error ∉ result.map Action.report)
    (hreport : result.map Action.report = actions.map Action.report ++ linesReports lines last) :
    PlainLines lines last := by
  induction lines generalizing actions with
  | nil =>
    refine ⟨(fun l hl => nomatch hl), ?_⟩
    rintro r rfl
    have hends' : Loop.Ends (turn data false) ⟨r.text ++ [], false, actions⟩ (some result) := by
      rw [append_nil]
      exact hends
    have hreport' : result.map Action.report = actions.map Action.report ++ (r.reports ++ []) := by
      rw [append_nil]
      exact hreport
    exact rule_plain ruleEnd_nil hends' hreport'
  | cons l lines ih =>
    rw [linesText_cons] at hends
    have hsplit : linesReports (l :: lines) last = l.1.reports ++ linesReports lines last := by
      rw [linesReports, flatMap_cons, append_assoc, linesReports]
    rw [hsplit] at hreport
    have hline : l.1.Plain := by
      obtain ⟨line, e⟩ := l
      cases line with
      | rule r => exact rule_plain (ruleEnd_lineEnd e _) hends hreport
      | comment c => exact comment_plain hends herror hreport
    have hrest := ih ((sameEnd_line hline _ _ _).mp hends) (by
      rw [hreport, map_append, l.1.report_actions, append_assoc])
    refine ⟨?_, hrest.last⟩
    intro l' hl'
    rcases mem_cons.mp hl' with rfl | hmem
    · exact hline
    · exact hrest.lines l' hmem

theorem noError_reports (f : File) : .error ∉ f.reports := by
  have hrule : ∀ r : Rule, .error ∉ r.reports := by
    intro r hmem
    rcases mem_append.mp hmem with hmem | hmem
    · rcases mem_cons.mp hmem with heq | hmem
      · cases heq
      · obtain ⟨d, -, heq⟩ := mem_map.mp hmem
        cases heq
    · cases mem_singleton.mp hmem
  intro hmem
  rcases mem_append.mp hmem with hmem | hmem
  · obtain ⟨⟨line, e⟩, -, hmem⟩ := mem_flatMap.mp hmem
    cases line with
    | rule r => exact hrule r hmem
    | comment c => cases hmem
  · cases hlast : f.last with
    | none =>
      rw [hlast] at hmem
      cases hmem
    | some r =>
      rw [hlast] at hmem
      exact hrule r hmem

end

/-- **The parser recovers a file** exactly if no dependency is followed at once by a continuation with CRLF and no
comment has any text. -/
theorem recovers_iff (f : File) : Recovers f ↔ f.Plain := by
  constructor
  · rintro ⟨actions, hends, hreport⟩
    have herror : .error ∉ actions.map Action.report := by
      rw [hreport]
      exact noError_reports f
    exact plain_of_ends hends herror hreport
  · intro hplain
    exact ends_plain hplain []

/-- A comment before a rule. -/
def commentedFile : File where
  lines := [(.comment ⟨[32, 120], by decide⟩, .lf)]
  last := some ⟨⟨⟨[97], by decide, forall_mem_singleton.mpr (by decide)⟩, by decide⟩,
    [(⟨.space, []⟩, ⟨⟨[98], by decide, forall_mem_singleton.mpr (by decide)⟩, by decide⟩)]⟩

/-- Its text is taken for the name of a rule. -/
theorem commentedFile_not_recovers : ¬ Recovers commentedFile := by
  rintro ⟨actions, hends, hreport⟩
  have hparses : Parses commentedFile.text false (some [.actOnRuleStart [120] [120],
      .error "missing ':' following rule" 3, .actOnRuleEnd, .actOnRuleStart [97] [97],
      .actOnRuleDependency [98] [98], .actOnRuleEnd]) := ⟨10, by decide⟩
  cases hends.unique hparses
  exact absurd hreport (by decide)

/-- A dependency with half of a continuation, and the next one as the name of a rule. -/
example : Parses [97, 58, 32, 98, 92, 13, 10, 99] false (some [.actOnRuleStart [97] [97],
    .actOnRuleDependency [98, 92, 13] [98, 92, 13], .actOnRuleEnd, .actOnRuleStart [99] [99],
    .error "missing ':' following rule" 8, .actOnRuleEnd]) := ⟨10, by decide⟩

end MakefileDepsParser

end Builra
