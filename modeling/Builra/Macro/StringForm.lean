import Builra.Macro.Meaning

namespace Builra.Macro

open List Fallible

/-!
# `Macro.StringForm` — the string form of a list keeps its text

A text without `$` is parsed as a list with callbacks that only add to the buffer at hand. Evaluated as a string, the
list is what these callbacks add one after another: the text itself, except that an escape character with nothing
left to escape is added once for the string form and once as a literal (`kept`).
-/

/-! ## What is kept -/

/-- What a callback adds to the buffer at hand when references are evaluated as strings. -/
def Callback.stringForm : Callback → Text
  | .foundLiteralStringFragment string => string
  | .foundStringFormOnlyLiteralStringFragment string => string
  | .foundListElementSeparator string => string
  | _ => []

def stringForm (calls : List Callback) : Text := calls.flatMap Callback.stringForm

@[simp]
theorem stringForm_append (calls more : List Callback) :
    stringForm (calls ++ more) = stringForm calls ++ stringForm more :=
  flatMap_append

@[simp]
theorem stringForm_cons (c : Callback) (calls : List Callback) :
    stringForm (c :: calls) = c.stringForm ++ stringForm calls :=
  flatMap_cons

@[simp]
theorem stringForm_nil : stringForm [] = [] := rfl

/-- The text ends in an escape character that escapes nothing and is not escaped. -/
def endsInEscape : Text → Bool
  | [] => false
  | [c] => c = ascii '\\'
  | c :: e :: rest => if c = ascii '\\' then endsInEscape rest else endsInEscape (e :: rest)

/-- The string form of a text without `$`. -/
def kept (s : Text) : Text := s ++ if endsInEscape s then [ascii '\\'] else []

@[simp]
theorem kept_nil : kept [] = [] := rfl

@[simp]
theorem kept_escape : kept [ascii '\\'] = [ascii '\\', ascii '\\'] := rfl

theorem kept_escaped (c : UInt8) (rest : Text) : kept (ascii '\\' :: c :: rest) = ascii '\\' :: c :: kept rest := by
  simp [kept, endsInEscape]

theorem kept_cons {c : UInt8} (hc : c ≠ ascii '\\') (rest : Text) : kept (c :: rest) = c :: kept rest := by
  cases rest with
  | nil | cons e rest => simp [kept, endsInEscape, hc]

theorem kept_append {s : Text} (hs : ∀ c ∈ s, c ≠ ascii '\\') (rest : Text) : kept (s ++ rest) = s ++ kept rest := by
  induction s with
  | nil => rfl
  | cons c s ih =>
    obtain ⟨hc, hs⟩ := forall_mem_cons.mp hs
    rw [cons_append, kept_cons hc, ih hs]
    rfl

/-! ## Parsing -/

/-- The callbacks add to the buffer at hand only; what they add, with what is still to be kept of the text that is
left, is `form`. -/
structure Keeps (form : Text) (calls : List Callback) (rest : Text) : Prop where
  quiet : ∀ c ∈ calls, c.quiet = true
  kept : stringForm calls ++ kept rest = form
  dollarless : ascii '$' ∉ rest

variable {calls : List Callback}

theorem Keeps.prepend {form rest : Text} {before : List Callback} (hquiet : ∀ c ∈ before, c.quiet = true)
    (h : Keeps form calls rest) : Keeps (stringForm before ++ form) (before ++ calls) rest where
  quiet := forall_mem_append.mpr ⟨hquiet, h.quiet⟩
  kept := by rw [stringForm_append, append_assoc, h.kept]
  dollarless := h.dollarless

theorem Keeps.trans {s r t : Text} {more : List Callback} (h : Keeps (Macro.kept s) calls r)
    (h' : Keeps (Macro.kept r) more t) : Keeps (Macro.kept s) (calls ++ more) t := by
  have hall := h'.prepend h.quiet
  rwa [h.kept] at hall

/-- Callbacks that add nothing. -/
theorem Keeps.silent {form rest : Text} {more : List Callback} (h : Keeps form calls rest)
    (hquiet : ∀ c ∈ more, c.quiet = true) (hsilent : stringForm more = []) : Keeps form (calls ++ more) rest where
  quiet := forall_mem_append.mpr ⟨h.quiet, hquiet⟩
  kept := by rw [stringForm_append, hsilent, append_nil, h.kept]
  dollarless := h.dollarless

theorem stringForm_flush (lit rest : Text) : stringForm (flush (lit ++ rest) rest) = lit := by
  rw [flush_append]
  cases lit with
  | nil => rfl
  | cons c lit => simp [literalFragment, Callback.stringForm]

section Parse

variable (string : Text)

variable {rest start : Text} {calls : List Callback} {fuel : Nat}

/-- One of the characters of a text without `$`, and the text after it. -/
theorem dollarless_cons {c : UInt8} (h : ascii '$' ∉ c :: rest) : c ≠ ascii '$' ∧ ascii '$' ∉ rest := by
  obtain ⟨hc, hrest⟩ := not_or.mp (mt mem_cons.mpr h)
  exact ⟨Ne.symm hc, hrest⟩

/-- A quote, or a pair of adjacent quotes, is kept as it is. -/
theorem toggleQuotes_keeps {quote : UInt8} {state current quotes : QuoteState} {after : Text}
    (hescape : quote ≠ ascii '\\') (h : toggleQuotes quote state current after = (calls, quotes, rest))
    (hdollar : ascii '$' ∉ after) :
    Keeps (kept (quote :: after)) calls rest := by
  unfold toggleQuotes at h
  split at h
  · rename_i hpair
    obtain ⟨tail, rfl⟩ := List.head?_eq_some_iff.mp hpair.2
    cases h
    refine ⟨by simp [Callback.quiet], ?_, (dollarless_cons hdollar).2⟩
    rw [kept_cons hescape, kept_cons hescape]
    rfl
  · cases h
    refine ⟨by simp [Callback.quiet], ?_, hdollar⟩
    rw [kept_cons hescape]
    rfl

/-- How an element goes on after a part of it: the literal text at the mark, the callbacks for the part, and what the
loop adds from there. -/
theorem Keeps.flushed (lit start : Text) {form : Text} {more : List Callback} (hquiet : ∀ c ∈ calls, c.quiet = true)
    (h : Keeps form more rest) :
    Keeps (lit ++ (Macro.stringForm calls ++ form)) (flush (lit ++ start) start ++ calls ++ more) rest := by
  have hall := (h.prepend hquiet).prepend (quiet_flush (lit ++ start) start)
  rwa [stringForm_flush, ← append_assoc (flush (lit ++ start) start)] at hall

theorem keeps_flush (lit : Text) (hdollar : ascii '$' ∉ rest) :
    Keeps (lit ++ kept rest) (flush (lit ++ rest) rest) rest where
  quiet := quiet_flush _ _
  kept := by rw [stringForm_flush]
  dollarless := hdollar

section

variable (hdollar : ascii '$' ∉ start)
include hdollar

theorem elementLoop_keeps {current quotes : QuoteState} {lit mark : Text}
    (h : elementLoop string fuel current (lit ++ start) start = .ok (calls, quotes, mark, rest)) :
    Keeps (lit ++ kept start) (calls ++ flush mark rest) rest := by
  induction fuel generalizing current lit start calls with
  | zero => cases h
  | succ fuel ih =>
    -- after a part of the element the loop goes on at `r`, with `pending` ahead of it still to be emitted
    have hnext : ∀ (before : List Callback) (pending : Text) {r : Text} {current' : QuoteState},
        (∀ c ∈ before, c.quiet = true) → ascii '$' ∉ r → kept start = stringForm before ++ (pending ++ kept r) →
        (elementLoop string fuel current' (pending ++ r) r >>= fun p =>
            .ok (flush (lit ++ start) start ++ before ++ p.1, p.2)) = .ok (calls, quotes, mark, rest) →
        Keeps (lit ++ kept start) (calls ++ flush mark rest) rest := by
      intro before pending r current' hquiet hr hkept hrun
      obtain ⟨⟨more, final⟩, hloop, hrun⟩ := bind_eq_ok.mp hrun
      cases hrun
      rw [hkept, append_assoc]
      exact (ih hr hloop).flushed lit start hquiet
    unfold elementLoop at h
    cases start with
    | nil =>
      cases h
      exact keeps_flush lit hdollar
    | cons c after =>
      obtain ⟨hc, hafter⟩ := dollarless_cons hdollar
      by_cases hescape : c = ascii '\\'
      · subst hescape
        cases after with
        | nil =>
          -- the escape character is added for the string form, and then as a literal
          cases h
          have hlast : Keeps ([ascii '\\'] ++ kept []) (flush ([ascii '\\'] ++ []) []) [] := keeps_flush _ hafter
          have hquiet : ∀ c ∈ [Callback.foundStringFormOnlyLiteralStringFragment [ascii '\\'],
              diagnostic string (index string [ascii '\\']) (index string []) .trailingEscapeCharacter .error],
              c.quiet = true := by
            simp [Callback.quiet, diagnostic]
          have hall := hlast.flushed lit [ascii '\\'] hquiet
          simpa [diagnostic, Callback.stringForm] using hall
        | cons e afterEscaped =>
          have hquiet : ∀ c ∈ [Callback.foundStringFormOnlyLiteralStringFragment [ascii '\\']], c.quiet = true := by
            simp [Callback.quiet]
          exact hnext _ [e] hquiet (dollarless_cons hafter).2 (kept_escaped e afterEscaped) h
      · have hkept := kept_cons hescape after
        simp only [hescape, hc, if_false] at h
        have hquote : ∀ quote state, quote = c →
            (elementLoop string fuel (toggleQuotes quote state current after).2.1
                (toggleQuotes quote state current after).2.2 (toggleQuotes quote state current after).2.2 >>=
              fun p => .ok (flush (lit ++ c :: after) (c :: after)
                ++ (toggleQuotes quote state current after).1 ++ p.1, p.2)) = .ok (calls, quotes, mark, rest) →
            Keeps (lit ++ kept (c :: after)) (calls ++ flush mark rest) rest := by
          rintro quote state rfl hrun
          obtain ⟨hquiet, htoggle, hrest⟩ := toggleQuotes_keeps hescape (rfl : toggleQuotes quote state current after = _)
            hafter
          exact hnext _ [] hquiet hrest htoggle.symm hrun
        by_cases hdouble : c = ascii '"' ∧ current ≠ .singleQuotes
        · have hcurrent : current = .noQuotes ∨ current = .doubleQuotes := by
            cases current <;> simp_all
          rw [if_pos hdouble] at h
          simp only [assert_of hcurrent, ok_bind] at h
          exact hquote (ascii '"') .doubleQuotes hdouble.1.symm h
        · rw [if_neg hdouble] at h
          by_cases hsingle : c = ascii '\'' ∧ current ≠ .doubleQuotes
          · have hcurrent : current = .noQuotes ∨ current = .singleQuotes := by
              cases current <;> simp_all
            rw [if_pos hsingle] at h
            simp only [assert_of hcurrent, ok_bind] at h
            exact hquote (ascii '\'') .singleQuotes hsingle.1.symm h
          · rw [if_neg hsingle] at h
            by_cases hspace : current = .noQuotes ∧ isAtWhitespace (c :: after) = true
            · rw [if_pos hspace] at h
              cases h
              exact keeps_flush lit hdollar
            · -- a literal character joins the text at the mark
              rw [if_neg hspace] at h
              have hshift : lit ++ c :: after = (lit ++ [c]) ++ after := by simp
              rw [hshift] at h
              have hmore := ih hafter h
              rw [append_assoc] at hmore
              rw [hkept]
              exact hmore

theorem parseQuotedExpressionStringElement_keeps
    (h : parseQuotedExpressionStringElement string fuel start = .ok (calls, rest)) :
    Keeps (kept start) calls rest := by
  unfold parseQuotedExpressionStringElement at h
  obtain ⟨-, -, h⟩ := bind_eq_ok.mp h
  obtain ⟨⟨elementCalls, quotes, mark, after⟩, hloop, h⟩ := bind_eq_ok.mp h
  obtain ⟨-, -, h⟩ := bind_eq_ok.mp h
  cases h
  have hkeeps : Keeps ([] ++ kept start) (elementCalls ++ flush mark rest) rest :=
    elementLoop_keeps string hdollar hloop
  apply hkeeps.silent
  · split <;> simp [Callback.quiet, errorAt, diagnostic]
  · split <;> rfl

theorem parseWhitespace_keeps {separator : Bool}
    (h : parseWhitespace separator start = (calls, rest)) :
    Keeps (kept start) calls rest := by
  unfold parseWhitespace at h
  by_cases hspace : isAtWhitespace start = true
  · have hsplit : start = start.takeWhile (fun c => isAtWhitespace [c]) ++ start.dropWhile (fun c => isAtWhitespace [c]) :=
      takeWhile_append_dropWhile.symm
    have hwhite : ∀ c ∈ start.takeWhile fun c => isAtWhitespace [c], isAtWhitespace [c] = true :=
      fun c hc => mem_takeWhile_imp (p := fun c => isAtWhitespace [c]) hc
    generalize hafter : start.dropWhile (fun c => isAtWhitespace [c]) = after at h hsplit
    generalize start.takeWhile (fun c => isAtWhitespace [c]) = white at hsplit hwhite
    subst hsplit
    rw [if_pos hspace] at h
    simp only [slice_of_append] at h
    have hkept : kept (white ++ after) = white ++ kept after := by
      apply kept_append
      rintro c hc rfl
      exact absurd (hwhite _ hc) (by decide)
    have hrest : ascii '$' ∉ after := fun hmem => hdollar (mem_append_right _ hmem)
    split at h <;> cases h <;> exact ⟨by simp [Callback.quiet], by simp [Callback.stringForm, hkept], hrest⟩
  · rw [if_neg hspace] at h
    cases h
    exact ⟨by simp, rfl, hdollar⟩

theorem parseAsStringListLoop_keeps
    (h : parseAsStringListLoop string fuel start = .ok (calls, rest)) :
    Keeps (kept start) calls rest := by
  induction fuel generalizing start calls with
  | zero => cases h
  | succ fuel ih =>
    unfold parseAsStringListLoop at h
    by_cases hstart : start = []
    · rw [if_pos hstart] at h
      cases h
      exact ⟨by simp, rfl, hdollar⟩
    · rw [if_neg hstart] at h
      rcases hwhite : parseWhitespace true start with ⟨whitespace, afterWhite⟩
      have hspace := parseWhitespace_keeps hdollar hwhite
      simp only [hwhite] at h
      by_cases hafter : afterWhite = []
      · rw [if_pos hafter] at h
        cases h
        exact hspace
      · rw [if_neg hafter] at h
        obtain ⟨⟨elementCalls, afterElement⟩, helement, h⟩ := bind_eq_ok.mp h
        obtain ⟨-, -, h⟩ := bind_eq_ok.mp h
        obtain ⟨⟨more, final⟩, hloop, h⟩ := bind_eq_ok.mp h
        cases h
        have helementKeeps := parseQuotedExpressionStringElement_keeps string hspace.dollarless helement
        exact (hspace.trans helementKeeps).trans (ih helementKeeps.dollarless hloop)

end

end Parse

/-- All of a text without `$` is kept by the callbacks of its parse. -/
theorem parseAsStringList_keeps {string : Text} (hdollar : ascii '$' ∉ string) :
    ∃ calls, parseAsStringList string (enoughFuel string) = .ok (calls, []) ∧ Keeps (kept string) calls [] := by
  obtain ⟨calls, hparse, -⟩ := parseAsStringList_spec string (enoughFuel string) (le_refl _)
  refine ⟨calls, hparse, ?_⟩
  unfold parseAsStringList at hparse
  rcases hwhite : parseWhitespace false string with ⟨whitespace, rest⟩
  have hspace := parseWhitespace_keeps hdollar hwhite
  simp only [hwhite] at hparse
  by_cases hrest : rest = []
  · rw [if_pos hrest] at hparse
    cases hparse
    exact hspace
  · rw [if_neg hrest] at hparse
    obtain ⟨⟨elementCalls, afterElement⟩, helement, hparse⟩ := bind_eq_ok.mp hparse
    obtain ⟨⟨more, final⟩, hloop, hparse⟩ := bind_eq_ok.mp hparse
    obtain ⟨-, -, hparse⟩ := bind_eq_ok.mp hparse
    cases hparse
    have helementKeeps := parseQuotedExpressionStringElement_keeps string hspace.dollarless helement
    exact (hspace.trans helementKeeps).trans (parseAsStringListLoop_keeps string helementKeeps.dollarless hloop)

/-! ## Evaluation -/

section Evaluation

variable {β : Type} (fns : StringFunctions) (resolve : Text → Resolution β)
  (evaluate : β → Bool → MacroEvaluationResultBuilder → Except Halt MacroEvaluationResultBuilder)

theorem buildString_append (b : MacroEvaluationResultBuilder) (s : Text) :
    (b.append s).buildString = b.buildString ++ s := by
  unfold MacroEvaluationResultBuilder.append MacroEvaluationResultBuilder.applyPendingListElementSeparatorIfNeeded
  split <;> rfl

/-- The instructions for a callback that only adds text, run in string form. -/
theorem run_quiet {c : Callback} (hquiet : c.quiet = true) (levels : NestingLevels) (b : MacroEvaluationResultBuilder) :
    ∃ b', runInstructions fns resolve evaluate true (emitted levels c) ⟨[], b⟩ = .ok ⟨[], b'⟩
      ∧ b'.buildString = b.buildString ++ c.stringForm := by
  cases c with
  | foundLiteralStringFragment s | foundStringFormOnlyLiteralStringFragment s | foundListElementSeparator s =>
    exact ⟨b.append s, rfl, buildString_append b s⟩
  | handleDiagnostic d => exact ⟨b, rfl, (append_nil _).symm⟩
  | _ => cases hquiet

theorem run_stringForm {calls : List Callback} (hquiet : ∀ c ∈ calls, c.quiet = true) (levels : NestingLevels)
    (b : MacroEvaluationResultBuilder) :
    ∃ b', runInstructions fns resolve evaluate true (emit levels calls) ⟨[], b⟩ = .ok ⟨[], b'⟩
      ∧ b'.buildString = b.buildString ++ stringForm calls := by
  induction calls generalizing levels b with
  | nil => exact ⟨b, rfl, (append_nil _).symm⟩
  | cons c calls ih =>
    obtain ⟨hc, hcalls⟩ := forall_mem_cons.mp hquiet
    obtain ⟨b₁, hrun, hbuild⟩ := run_quiet fns resolve evaluate hc (levels.after c) b
    obtain ⟨b₂, hrun', hbuild'⟩ := ih hcalls (levels.after c) b₁
    refine ⟨b₂, ?_, ?_⟩
    · rw [emit, run_append hrun, hrun']
    · rw [hbuild', hbuild, stringForm_cons, append_assoc]

/-- A program that is a literal computes that literal. -/
theorem executeProgram_asLiteralString {program : MacroEvaluationProgram} {literal : Text}
    (h : program.asLiteralString = some literal) (always debug : Bool) :
    ∃ b, executeProgram fns resolve evaluate always debug program {} = .ok b ∧ b.buildString = literal := by
  cases program with
  | empty =>
    cases h
    exact ⟨{}, rfl, rfl⟩
  | literal value =>
    cases h
    exact ⟨_, rfl, buildString_append {} literal⟩
  | instructions value => cases h

/-- The program of a list without `$`, run in string form. -/
def HasStringForm (program : MacroEvaluationProgram) (form : Text) : Prop :=
  ∀ debug, ∃ b, executeProgram fns resolve evaluate true debug program {} = .ok b ∧ b.buildString = form

theorem HasStringForm.literal {program : MacroEvaluationProgram} {form literal : Text}
    (h : HasStringForm fns resolve evaluate program form) (hliteral : program.asLiteralString = some literal) :
    literal = form := by
  obtain ⟨b, hrun, rfl⟩ := h false
  obtain ⟨b', hrun', rfl⟩ := executeProgram_asLiteralString fns resolve evaluate hliteral true false
  rw [hrun] at hrun'
  cases hrun'
  rfl

end Evaluation

theorem parseStringList_keeps {s : Text} (hdollar : ascii '$' ∉ s) :
    ∃ expr, parseStringList s = .ok expr
      ∧ ∀ {β : Type} (fns : StringFunctions) (resolve : Text → Resolution β)
          (evaluate : β → Bool → MacroEvaluationResultBuilder → Except Halt MacroEvaluationResultBuilder),
        HasStringForm fns resolve evaluate expr.evalProgram (kept s) := by
  obtain ⟨calls, hparse, hkeeps⟩ := parseAsStringList_keeps hdollar
  unfold parseStringList
  split
  · rename_i calls' rest parsed
    rw [hparse] at parsed
    cases parsed
    refine ⟨_, rfl, ?_⟩
    intro β fns resolve evaluate
    obtain ⟨b, hrun, hbuild⟩ := run_stringForm fns resolve evaluate hkeeps.quiet {} {}
    have hform : stringForm calls = kept s := by
      have hkept := hkeeps.kept
      rwa [kept_nil, append_nil] at hkept
    refine fun debug => ⟨b, ?_, hbuild.trans hform⟩
    rw [executeProgram_ofInstructions, hrun]
    cases debug <;> rfl
  · rename_i violation parsed
    rw [hparse] at parsed
    cases parsed

/-- **The string form keeps the text.** A text without `$`, parsed as a list and evaluated as a string, is the text
with every quote, escape character and whitespace once; only an escape character at its very end that has nothing to
escape, which the parser reports as an error, is there twice. -/
theorem stringList_asString {s : Text} (hdollar : ascii '$' ∉ s) :
    ∃ expr, parseStringList s = .ok expr
      ∧ (∀ fns mfns scope debug context fuel, ∃ b,
          executeInContext fns mfns scope debug (fuel + 1) context expr.evalProgram true {} = .ok b
            ∧ b.buildString = if endsInEscape s then s ++ [ascii '\\'] else s)
      ∧ ∀ fns mfns scope debug lookup decl conditions next fuel,
          firstMatchingCondition mfns scope.conditionParameterValues (scope.table.lookupMacroOverride lookup decl)
              = ⟨expr, conditions⟩ :: next →
            evaluateAsString fns mfns scope debug lookup (fuel + 1) decl
              = .ok (if endsInEscape s then s ++ [ascii '\\'] else s) := by
  have hkept : kept s = if endsInEscape s then s ++ [ascii '\\'] else s := by
    unfold kept
    split
    · rfl
    · exact append_nil s
  rw [← hkept]
  obtain ⟨expr, hparse, hform⟩ := parseStringList_keeps hdollar
  refine ⟨expr, hparse, ?_, ?_⟩
  · intro fns mfns scope debug context fuel
    exact hform fns _ _ debug
  · intro fns mfns scope debug lookup decl conditions next fuel hvalue
    have hhere := hform fns (resolveInContext mfns scope (.root (some decl) (⟨expr, conditions⟩ :: next) lookup))
      fun value asString b => executeInContext fns mfns scope debug fuel value.1 value.2.evalProgram asString b
    simp only [evaluateAsString, hvalue]
    cases hliteral : expr.evalProgram.asLiteralString with
    | some literal => exact congrArg Except.ok (hhere.literal _ _ _ hliteral)
    | none =>
      obtain ⟨b, hrun, hbuild⟩ := hhere debug
      rw [← hbuild]
      exact congrArg (· >>= fun b : MacroEvaluationResultBuilder => Except.ok b.buildString) hrun

/-- Quotes next to each other, an escaped quote, and whitespace at both ends. -/
theorem stringList_asString_quotes : ∃ expr, parseStringList (text " a''\\\" \"b c\" ") = .ok expr
    ∧ ∃ b, executeInContext plainFunctions plainMatch emptyScope true 1 (.root none [] fun _ => none) expr.evalProgram
        true {} = .ok b ∧ b.buildString = text " a''\\\" \"b c\" " := by
  obtain ⟨expr, hparse, hrun, -⟩ :=
    stringList_asString (show ascii '$' ∉ text " a''\\\" \"b c\" " by decide)
  exact ⟨expr, hparse, hrun plainFunctions plainMatch emptyScope true _ 0⟩

/-- A lone escape character at the end is there twice. -/
theorem stringForm_doubles_lone_escape :
    ¬∀ s : Text, ascii '$' ∉ s → ∃ expr, parseStringList s = .ok expr
      ∧ ∃ b, executeInContext plainFunctions plainMatch emptyScope true 1 (.root none [] fun _ => none)
          expr.evalProgram true {} = .ok b ∧ b.buildString = s := by
  intro h
  obtain ⟨expr, hparse, b, hrun, hbuild⟩ := h (text "a\\") (by decide)
  obtain ⟨expr', hparse', hform⟩ := parseStringList_keeps (show ascii '$' ∉ text "a\\" by decide)
  rw [hparse] at hparse'
  cases hparse'
  obtain ⟨b', hrun', hbuild'⟩ := hform plainFunctions
    (resolveInContext plainMatch emptyScope (.root none [] fun _ => none))
    (fun value asString b =>
      executeInContext plainFunctions plainMatch emptyScope true 0 value.1 value.2.evalProgram asString b) true
  have hsame : b = b' := Except.ok.inj (hrun.symm.trans hrun')
  rw [hsame, hbuild'] at hbuild
  exact absurd hbuild (by decide)

end Builra.Macro
