import Builra.Lib.Fallible
import Builra.Macro.Parser
import Mathlib.Data.List.TakeWhile

namespace Builra.Macro

open List Nat

/-!
# `Macro.Balance` — every parse ends, and when its program leaves the stack empty

The parser comes to the end of every string with its assertions and preconditions true, and the program it
emits never pops an empty stack. The emitting delegate opens a subresult for the operand of a replacement
operator before it knows the operator, and emits nothing that closes it when the name of the operator is
unknown: the final stack has one buffer for each such operator. `replacementOperators` finds the replacement
operators written in a text in one pass over its characters, and `stack_balanced_iff` says that the stack ends
empty exactly when all of them are known.
-/

/-! ## The replacement operators written in a text -/

/-- Where a scan over the characters of a text stands. -/
inductive ScanMode where
  /-- In literal text, in a name or in an operand. -/
  | text
  /-- After a `$`. -/
  | dollar
  /-- After a backslash of a string list. -/
  | escaped
  /-- In the name of an operator. -/
  | operator (name : Text)
  /-- In an operator that is skipped. -/
  | skipped
deriving DecidableEq

section Scan

-- `escapes` is set for string lists, where a backslash outside of brackets escapes a character. The closing
-- delimiters of the open brackets are kept, the innermost first.
variable (escapes : Bool)

variable (delims : List UInt8)

def scanText (c : UInt8) : ScanMode × List UInt8 :=
  if c = ascii '$' then (.dollar, delims)
  else match delims with
    | [] => (if escapes ∧ c = ascii '\\' then .escaped else .text, [])
    | d :: outer =>
      if c = d then (.text, outer) else if c = ascii ':' then (.operator [], delims) else (.text, delims)

def scanSkipped (c : UInt8) : ScanMode × List UInt8 :=
  if c = ascii ':' then (.operator [], delims)
  else if delims.head? = some c then (.text, delims.tail)
  else (.skipped, delims)

/-- The next mode and brackets, and the replacement operator that was found. -/
def scanStep (c : UInt8) : ScanMode → (ScanMode × List UInt8) × Option Text
  | .text => (scanText escapes delims c, none)
  | .dollar =>
    match getClosingDelimiter c with
    | some d => ((.text, d :: delims), none)
    | none => (if c = ascii '$' then (.text, delims) else scanText escapes delims c, none)
  | .escaped => ((.text, delims), none)
  | .operator name =>
    if isValidOperatorNameChar c then ((.operator (name ++ [c]), delims), none)
    else if c = ascii '=' ∧ name ≠ [] then ((.text, delims), some name)
    else (scanSkipped delims c, none)
  | .skipped => (scanSkipped delims c, none)

/-- The names of the replacement operators written in a text, from a mode and the open brackets on. -/
def scanOperators : ScanMode → List UInt8 → Text → List Text
  | _, _, [] => []
  | mode, delims, c :: rest =>
    let step := scanStep escapes delims c mode
    step.2.toList ++ scanOperators step.1.1 step.1.2 rest

end Scan

/-- The names of the replacement operators written in a string or in a string list. -/
def replacementOperators (escapes : Bool) (string : Text) : List Text :=
  scanOperators escapes .text [] string

/-! ## Characters -/

theorem closing_cases {c d : UInt8} (h : getClosingDelimiter c = some d) :
    d = ascii ')' ∨ d = ascii '\x7d' ∨ d = ascii ']' := by
  unfold getClosingDelimiter at h
  split at h
  · exact .inl (Option.some.inj h).symm
  · split at h
    · exact .inr (.inl (Option.some.inj h).symm)
    · split at h
      · exact .inr (.inr (Option.some.inj h).symm)
      · cases h

/-- A closing delimiter is none of the other special characters. -/
structure Delimiter (d : UInt8) : Prop where
  ne_dollar : d ≠ ascii '$'
  ne_colon : d ≠ ascii ':'
  ne_equals : d ≠ ascii '='
  not_operatorName : isValidOperatorNameChar d = false
  not_macroName : isValidMacroNameNthChar d = false

theorem delimiter_of_closing {c d : UInt8} (h : getClosingDelimiter c = some d) : Delimiter d := by
  rcases closing_cases h with rfl | rfl | rfl <;> constructor <;> decide

/-- A special character is not part of a macro name. -/
theorem ne_of_macroName {c e : UInt8} (h : isValidMacroNameNthChar c = true)
    (he : isValidMacroNameNthChar e = false) : c ≠ e := by
  rintro rfl
  rw [h] at he
  cases he

/-- What a scan finds: the text is the scanned part and the rest, which starts at a stop character. -/
theorem scanUntil_spec (block : UInt8 → Bool) (s : Text) :
    ∃ lit r, scanUntil block s = (if lit.isEmpty then none else some lit, r) ∧ s = lit ++ r
      ∧ (∀ c ∈ lit, block c = false) ∧ ∀ c, r.head? = some c → block c = true := by
  refine ⟨s.takeWhile (fun c => !block c), s.dropWhile (fun c => !block c), rfl,
    (takeWhile_append_dropWhile).symm, ?_, ?_⟩
  · intro c hc
    simpa using mem_takeWhile_imp hc
  · intro c hc
    have := head?_dropWhile_not (fun c => !block c) s
    rw [hc] at this
    simpa using this

/-! ## What a scan skips -/

section ScanLemmas

variable {escapes : Bool} {delims : List UInt8}

theorem scan_text_append {lit : Text} (r : Text)
    (h : ∀ c ∈ lit, scanText escapes delims c = (.text, delims)) :
    scanOperators escapes .text delims (lit ++ r) = scanOperators escapes .text delims r := by
  induction lit with
  | nil => rfl
  | cons c lit ih =>
    have hc := h c (by simp)
    simp only [cons_append, scanOperators, scanStep, hc, Option.toList, nil_append]
    exact ih fun e he => h e (by simp [he])

theorem scan_operatorName_append {name lit : Text} (r : Text)
    (h : ∀ c ∈ lit, isValidOperatorNameChar c = true) :
    scanOperators escapes (.operator name) delims (lit ++ r)
      = scanOperators escapes (.operator (name ++ lit)) delims r := by
  induction lit generalizing name with
  | nil => simp
  | cons c lit ih =>
    have hc := h c (by simp)
    simp only [cons_append, scanOperators, scanStep, hc, if_true, Option.toList, nil_append]
    rw [ih fun e he => h e (by simp [he])]
    simp

theorem scan_skipped_append {lit : Text} (r : Text)
    (h : ∀ c ∈ lit, c ≠ ascii ':' ∧ delims.head? ≠ some c) :
    scanOperators escapes .skipped delims (lit ++ r) = scanOperators escapes .skipped delims r := by
  induction lit with
  | nil => rfl
  | cons c lit ih =>
    obtain ⟨hcolon, hdelim⟩ := h c (by simp)
    simp only [cons_append, scanOperators, scanStep, scanSkipped, hcolon, hdelim, if_false,
      Option.toList, nil_append]
    exact ih fun e he => h e (by simp [he])

/-- Where an operator stops, it makes no difference how it was read. -/
theorem scan_stop {d : UInt8} (hd : Delimiter d) {mode : ScanMode}
    (hmode : mode = .skipped ∨ ∃ name, mode = .operator name) {r : Text}
    (hr : ∀ c, r.head? = some c → c = ascii ':' ∨ c = d) :
    scanOperators escapes mode (d :: delims) r = scanOperators escapes .text (d :: delims) r := by
  cases r with
  | nil => simp [scanOperators]
  | cons c r =>
    have hskip : scanStep escapes (d :: delims) c mode = (scanSkipped (d :: delims) c, none) := by
      rcases hmode with rfl | ⟨name, rfl⟩
      · rfl
      · rcases hr c rfl with rfl | rfl
        · have hname : isValidOperatorNameChar (ascii ':') = false := by decide
          have hequals : ascii ':' ≠ ascii '=' := by decide
          simp [scanStep, hname, hequals]
        · simp [scanStep, hd.not_operatorName, hd.ne_equals]
    have htext : scanText escapes (d :: delims) c = scanSkipped (d :: delims) c := by
      rcases hr c rfl with rfl | rfl
      · have hdollar : ascii ':' ≠ ascii '$' := by decide
        simp [scanText, scanSkipped, hdollar, hd.ne_colon.symm]
      · simp [scanText, scanSkipped, hd.ne_dollar, hd.ne_colon]
    simp only [scanOperators, hskip]
    simp only [scanStep, htext]

end ScanLemmas

/-! ## The stack effect of callbacks -/

/-- The height of the stack after an instruction; none if it needs more buffers than there are. A macro is
evaluated into the buffer below its name. -/
def effect (height : Nat) : EvalInstr → Option Nat
  | .beginSubresult => some (height + 1)
  | .evalNamedMacro _ _ => if 2 ≤ height then some (height - 1) else none
  | .mergeSubresult => if 1 ≤ height then some (height - 1) else none
  | .applyRetrievalOperator _ => if 1 ≤ height then some height else none
  | .applyReplacementOperator _ => if 2 ≤ height then some (height - 1) else none
  | _ => some height

def effects (instructions : List EvalInstr) (height : Nat) : Option Nat := instructions.foldlM effect height

variable (levels : NestingLevels)

/-- The levels after a list of callbacks. -/
def NestingLevels.afterAll (calls : List Callback) : NestingLevels :=
  calls.foldl NestingLevels.after levels

theorem emit_append (calls more : List Callback) :
    emit levels (calls ++ more) = emit levels calls ++ emit (levels.afterAll calls) more := by
  induction calls generalizing levels with
  | nil => rfl
  | cons c calls ih =>
    simp only [cons_append, emit, ih, append_assoc]
    rfl

theorem effects_append (is js : List EvalInstr) (height : Nat) :
    effects (is ++ js) height = effects is height >>= effects js := by
  unfold effects
  exact foldlM_append

/-- The height after a list of callbacks. -/
def heightAfter (calls : List Callback) (height : Nat) : Option Nat :=
  effects (emit levels calls) height

variable {calls more : List Callback} {need : Nat} {p : Prop}

theorem heightAfter_append {levels : NestingLevels} {height middle : Nat}
    (h : heightAfter levels calls height = some middle) :
    heightAfter levels (calls ++ more) height = heightAfter (levels.afterAll calls) more middle := by
  unfold heightAfter at *
  rw [emit_append, effects_append, h]
  rfl

theorem heightAfter_cons {levels : NestingLevels} {c : Callback} {height middle : Nat}
    (h : effects (emitted (levels.after c) c) height = some middle) :
    heightAfter levels (c :: calls) height = heightAfter (levels.after c) calls middle := by
  unfold heightAfter
  rw [emit, effects_append, h]
  rfl

/-- The names of the replacement operators that callbacks start. -/
def startedReplacements (calls : List Callback) : List Text :=
  calls.filterMap fun
    | .foundStartOfReplacementOperator name => some name
    | _ => none

/-- How many of the names are unknown. -/
def unknownCount (names : List Text) : Nat :=
  names.countP fun name => (MacroEvaluationReplacementOperator.ofName name).isNone

@[simp]
theorem unknownCount_append (names more : List Text) :
    unknownCount (names ++ more) = unknownCount names + unknownCount more := by
  simp [unknownCount]

@[simp]
theorem startedReplacements_append (calls more : List Callback) :
    startedReplacements (calls ++ more) = startedReplacements calls ++ startedReplacements more := by
  simp [startedReplacements]

/-- Callbacks raise the stack by one for each unknown replacement operator, if `need` buffers are there. -/
def Raises (need : Nat) (calls : List Callback) : Prop :=
  ∀ levels height, need ≤ height →
    heightAfter levels calls height = some (height + unknownCount (startedReplacements calls))

theorem raises_nil (need : Nat) : Raises need [] := by
  intro levels height _
  rfl

theorem Raises.append (h : Raises need calls) (h' : Raises need more) : Raises need (calls ++ more) := by
  intro levels height hneed
  rw [heightAfter_append (h levels height hneed), h' _ _ (by omega)]
  simp [Nat.add_assoc]

theorem Raises.mono {more : Nat} (h : Raises need calls) (hle : need ≤ more) :
    Raises more calls :=
  fun levels height hneed => h levels height (hle.trans hneed)

/-- The callbacks that neither push nor pop. -/
def Callback.quiet : Callback → Bool
  | .foundLiteralStringFragment _ => true
  | .foundStringFormOnlyLiteralStringFragment _ => true
  | .foundListElementSeparator _ => true
  | .handleDiagnostic _ => true
  | _ => false

theorem raises_of_quiet (h : ∀ c ∈ calls, c.quiet = true) : Raises 0 calls := by
  induction calls with
  | nil => exact raises_nil 0
  | cons c calls ih =>
    intro levels height hneed
    have hrest := ih (fun e he => h e (by simp [he])) (levels.after c) height hneed
    have hc := h c (by simp)
    cases c <;> simp only [Callback.quiet, Bool.false_eq_true] at hc <;>
      exact (heightAfter_cons (by rfl)).trans hrest

theorem quiet_literalFragment (literal : Option Text) :
    ∀ c ∈ literalFragment literal, c.quiet = true := by
  cases literal <;> simp [literalFragment, Callback.quiet]

theorem quiet_flush (mark rest : Text) : ∀ c ∈ flush mark rest, c.quiet = true := by
  unfold flush
  split <;> simp [Callback.quiet]

theorem startedReplacements_of_quiet (h : ∀ c ∈ calls, c.quiet = true) :
    startedReplacements calls = [] := by
  refine filterMap_eq_nil_iff.mpr ?_
  intro c hc
  have := h c hc
  cases c <;> simp_all [Callback.quiet]

/-! ## Substitution subexpressions -/

theorem ok_bind {ε α β : Type} (a : α) (f : α → Except ε β) : (Except.ok a >>= f) = f a := by
  rfl

theorem assert_of [Decidable p] (h : p) : assert p = .ok () := by
  simp [assert, h]

theorem precondition_of [Decidable p] (h : p) : precondition p = .ok () := by
  simp [precondition, h]

theorem of_assert [Decidable p] {u : Unit} (h : assert p = .ok u) : p := by
  by_contra hnot
  simp [assert, hnot] at h

theorem of_precondition [Decidable p] {u : Unit} (h : precondition p = .ok u) : p := by
  by_contra hnot
  simp [precondition, hnot] at h

/-- What the callbacks for a part of the text say: how they move the stack, and which replacement operators a
scan finds in that part, inside the brackets `inner` and any others. -/
structure Report (need : Nat) (inner : List UInt8) (start : Text) (calls : List Callback) (rest : Text) :
    Prop where
  raises : Raises need calls
  scanned : ∀ escapes outer, (∀ d ∈ outer, Delimiter d) →
    scanOperators escapes .text (inner ++ outer) start
      = startedReplacements calls ++ scanOperators escapes .text (inner ++ outer) rest

theorem Report.trans {inner : List UInt8} {s r t : Text} (h : Report need inner s calls r)
    (h' : Report need inner r more t) :
    Report need inner s (calls ++ more) t where
  raises := h.raises.append h'.raises
  scanned escapes outer ho := by
    rw [h.scanned escapes outer ho, h'.scanned escapes outer ho, startedReplacements_append,
      append_assoc]

section Specs

variable (string : Text)

def SubstitutionSpec (fuel : Nat) : Prop :=
  ∀ always start, start.head? = some (ascii '$') → 2 * start.length + 1 ≤ fuel →
    ∃ calls rest, parseSubstitutionSubexpression string fuel always start = .ok (calls, rest)
      ∧ rest.length < start.length ∧ Report 0 [] start calls rest

def FragmentSpec (fuel : Nat) : Prop :=
  ∀ always d start, Delimiter d → 2 * start.length + 2 ≤ fuel →
    ∃ calls rest, parseSubstitutionSubexpressionFragment string fuel always d start = .ok (calls, rest)
      ∧ rest.length ≤ start.length
      ∧ (rest = [] ∨ rest.head? = some (ascii ':') ∨ rest.head? = some d)
      ∧ Report 0 [d] start calls rest

def OperatorsSpec (fuel : Nat) : Prop :=
  ∀ always d start, Delimiter d → 2 * start.length + 2 ≤ fuel →
    (start = [] ∨ start.head? = some (ascii ':') ∨ start.head? = some d) →
    ∃ calls rest, parseOperators string fuel always d start = .ok (calls, rest)
      ∧ rest.length ≤ start.length ∧ (rest = [] ∨ rest.head? = some d)
      ∧ Report 1 [d] start calls rest

variable {string} {fuel : Nat}

variable {d : UInt8} {rest : Text} {calls : List Callback}

/-- Literal text of a name or an operand. -/
theorem report_literal {lit : Text} {block : UInt8 → Bool} (literal : Option Text) (rest : Text)
    (hblock : ∀ c, block c = false → c ≠ ascii '$' ∧ c ≠ ascii ':' ∧ c ≠ d) (h : ∀ c ∈ lit, block c = false) :
    Report 0 [d] (lit ++ rest) (literalFragment literal) rest where
  raises := raises_of_quiet (quiet_literalFragment literal)
  scanned escapes outer _ := by
    rw [startedReplacements_of_quiet (quiet_literalFragment literal), nil_append]
    apply scan_text_append
    intro c hc
    obtain ⟨hdollar, hcolon, hd⟩ := hblock c (h c hc)
    simp [scanText, hdollar, hcolon, hd]

theorem fragment_step (hsubst : SubstitutionSpec string fuel) (hfrag : FragmentSpec string fuel) :
    FragmentSpec string (fuel + 1) := by
  intro always d start hd hfuel
  unfold parseSubstitutionSubexpressionFragment
  by_cases hstart : start = []
  · subst hstart
    exact ⟨[], [], by simp, le_refl _, .inl rfl, raises_nil 0, fun _ _ _ => rfl⟩
  · obtain ⟨lit, rest, hscan, hsplit, hlit, hstop⟩ :=
      scanUntil_spec (fun c => c = ascii '$' ∨ c = ascii ':' ∨ c = d) start
    have hhead : rest = [] ∨ rest.head? = some (ascii '$') ∨ rest.head? = some (ascii ':')
        ∨ rest.head? = some d := by
      cases rest with
      | nil => exact .inl rfl
      | cons c rest =>
        have := hstop c rfl
        simp only [decide_eq_true_eq] at this
        simpa using this
    have hblock : ∀ c, decide (c = ascii '$' ∨ c = ascii ':' ∨ c = d) = false →
        c ≠ ascii '$' ∧ c ≠ ascii ':' ∧ c ≠ d := by
      intro c hc
      simpa [not_or] using hc
    have hreport := report_literal (if lit.isEmpty then none else some lit) rest hblock hlit
    have hlen : lit.length + rest.length = start.length := by simp [hsplit]
    simp only [hstart, if_false, hscan, assert_of hhead, ok_bind]
    by_cases hdollar : rest.head? = some (ascii '$')
    · obtain ⟨calls, rest', hparse, hlt, hr⟩ := hsubst always rest hdollar (by omega)
      obtain ⟨more, rest'', hparse', hle', hhead', hr'⟩ := hfrag always d rest' hd (by omega)
      simp only [hdollar, ne_eq, not_true_eq_false, if_false, hparse, hparse', ok_bind]
      refine ⟨_, rest'', rfl, by omega, hhead', ?_⟩
      have hmiddle : Report 0 [d] rest calls rest' :=
        ⟨hr.raises, fun escapes outer ho => hr.scanned escapes (d :: outer) (by simpa using ⟨hd, ho⟩)⟩
      rw [hsplit]
      exact (hreport.trans hmiddle).trans hr'
    · have hend : rest = [] ∨ rest.head? = some (ascii ':') ∨ rest.head? = some d := by tauto
      simp only [ne_eq, hdollar, not_false_eq_true, if_true, assert_of hend, ok_bind]
      refine ⟨_, rest, rfl, by omega, hend, ?_⟩
      rw [hsplit]
      exact hreport

/-- A scan for the end of an operator that is not read. -/
theorem scan_skipped_until (hd : Delimiter d) (s : Text) :
    let rest := (scanUntil (fun c => c = ascii ':' ∨ c = d) s).2
    rest.length ≤ s.length ∧ (rest = [] ∨ rest.head? = some (ascii ':') ∨ rest.head? = some d)
      ∧ ∀ escapes outer, scanOperators escapes .skipped (d :: outer) s
          = scanOperators escapes .text (d :: outer) rest := by
  obtain ⟨lit, rest, hscan, hsplit, hlit, hstop⟩ := scanUntil_spec (fun c => c = ascii ':' ∨ c = d) s
  have hstop' : ∀ c, rest.head? = some c → c = ascii ':' ∨ c = d := by
    intro c hc
    simpa using hstop c hc
  rw [hscan]
  refine ⟨by simp [hsplit], ?_, ?_⟩
  · cases rest with
    | nil => exact .inl rfl
    | cons c rest => simpa using hstop' c rfl
  · intro escapes outer
    rw [hsplit, scan_skipped_append, scan_stop hd (.inl rfl) hstop']
    intro c hc
    have := hlit c hc
    simp only [decide_eq_false_iff_not, not_or] at this
    exact ⟨this.1, fun h => this.2 (Option.some.inj h).symm⟩

/-- A callback that only reports an error. -/
theorem raises_error (need : Nat) (rest : Text) (kind : DiagnosticKind) :
    Raises need [errorAt string rest kind] :=
  (raises_of_quiet (by simp [Callback.quiet, errorAt, diagnostic])).mono (zero_le _)

@[simp]
theorem startedReplacements_error (rest : Text) (kind : DiagnosticKind) :
    startedReplacements [errorAt string rest kind] = [] := by
  rfl

theorem raises_retrieval (operName : Text) (position : Nat) :
    Raises 1 [.foundRetrievalOperator operName position] := by
  intro levels height hneed
  cases hop : MacroEvaluationRetrievalOperator.ofName operName <;>
    simp [heightAfter, emit, emitted, effects, effect, hop, hneed, startedReplacements, unknownCount]

/-- A replacement operator closes the subresult of its operand only if it is known. -/
theorem raises_replacement {operName : Text} {position : Nat} {operandCalls diagnostics : List Callback}
    (hoperand : Raises 0 operandCalls) (hdiagnostics : ∀ c ∈ diagnostics, c.quiet = true) :
    Raises 1 (.foundStartOfReplacementOperator operName :: operandCalls
      ++ .foundEndOfReplacementOperator operName position :: diagnostics) := by
  intro levels height hneed
  have hquiet := raises_of_quiet hdiagnostics
  rw [cons_append, heightAfter_cons (by rfl), heightAfter_append (hoperand _ _ (zero_le _))]
  have hnames : startedReplacements (.foundStartOfReplacementOperator operName :: (operandCalls
      ++ .foundEndOfReplacementOperator operName position :: diagnostics))
      = operName :: startedReplacements operandCalls := by
    have hd := startedReplacements_of_quiet hdiagnostics
    unfold startedReplacements at hd ⊢
    simp [hd]
  rw [hnames]
  cases hop : MacroEvaluationReplacementOperator.ofName operName with
  | none =>
    rw [heightAfter_cons (by simp [emitted, hop, effects]; rfl), hquiet _ _ (zero_le _),
      startedReplacements_of_quiet hdiagnostics]
    simp [unknownCount, hop]
    omega
  | some op =>
    have hheight : 2 ≤ height + 1 + unknownCount (startedReplacements operandCalls) := by omega
    rw [heightAfter_cons (by simp [emitted, hop, effects, effect, hheight]; rfl), hquiet _ _ (zero_le _),
      startedReplacements_of_quiet hdiagnostics]
    simp [unknownCount, hop]

/-- One operator. `name` is what was scanned of its name. -/
theorem operator_spec (hd : Delimiter d) (always : Bool) (hfrag : FragmentSpec string fuel) {name : Text}
    (hname : ∀ c ∈ name, isValidOperatorNameChar c = true)
    (hrest : ∀ c, rest.head? = some c → isValidOperatorNameChar c = false) (hfuel : 2 * rest.length ≤ fuel) :
    ∃ calls rest', parseOperator string (parseSubstitutionSubexpressionFragment string fuel always d) d
        (if name.isEmpty then none else some name) rest = .ok (calls, rest')
      ∧ rest'.length ≤ rest.length
      ∧ (rest' = [] ∨ rest'.head? = some (ascii ':') ∨ rest'.head? = some d)
      ∧ Report 1 [d] (ascii ':' :: (name ++ rest)) calls rest' := by
  have hcolon : ∀ escapes outer, scanOperators escapes .text (d :: outer) (ascii ':' :: (name ++ rest))
      = scanOperators escapes (.operator name) (d :: outer) rest := by
    intro escapes outer
    have hdollar : ascii ':' ≠ ascii '$' := by decide
    rw [scanOperators]
    simp only [scanStep, scanText, hdollar, hd.ne_colon.symm, if_false, if_true, Option.toList,
      nil_append]
    exact scan_operatorName_append rest hname
  cases rest with
  | nil =>
    refine ⟨[errorAt string [] .unterminatedMacroSubexpression], [], rfl, le_refl _, .inl rfl,
      raises_error 1 _ _, ?_⟩
    intro escapes outer _
    rw [singleton_append, hcolon]
    simp [scanOperators]
  | cons c afterC =>
    by_cases hstop : c = ascii ':' ∨ c = d
    · have hhead : (c :: afterC).head? = some (ascii ':') ∨ (c :: afterC).head? = some d := by simpa using hstop
      have hscan : ∀ escapes outer, scanOperators escapes .text (d :: outer) (ascii ':' :: (name ++ c :: afterC))
          = scanOperators escapes .text (d :: outer) (c :: afterC) := by
        intro escapes outer
        rw [hcolon, scan_stop hd (.inr ⟨name, rfl⟩) (by simpa using hstop)]
      by_cases hempty : name = []
      · refine ⟨[errorAt string (c :: afterC) .missingOperatorName], c :: afterC,
          by simp [parseOperator, hstop, hempty], le_refl _, .inr hhead, raises_error 1 _ _, ?_⟩
        intro escapes outer _
        rw [singleton_append, hscan]
        simp
      · refine ⟨[.foundRetrievalOperator name (index string (c :: afterC))], c :: afterC,
          by simp [parseOperator, hstop, hempty], le_refl _, .inr hhead, raises_retrieval name _, ?_⟩
        intro escapes outer _
        rw [singleton_append, hscan]
        simp [startedReplacements]
    · by_cases hequals : c = ascii '='
      · subst hequals
        have hnotName : isValidOperatorNameChar (ascii '=') = false := by decide
        by_cases hempty : name = []
        · have hskip := scan_skipped_until hd afterC
          refine ⟨[errorAt string afterC .missingOperatorName],
            (scanUntil (fun c => c = ascii ':' ∨ c = d) afterC).2, by simp [parseOperator, hstop, hempty],
            le_succ_of_le hskip.1, hskip.2.1, raises_error 1 _ _, ?_⟩
          intro escapes outer _
          have hne : ascii '=' ≠ ascii ':' := by decide
          rw [singleton_append, hcolon, ← hskip.2.2, scanOperators]
          simp [scanStep, scanSkipped, hnotName, hempty, hne, hd.ne_equals]
        · obtain ⟨operandCalls, rest, hparse, hle, hhead, hreport⟩ :=
            hfrag always d afterC hd (by simp at hfuel; omega)
          have hquiet : ∀ c ∈ (if rest = [] then [errorAt string rest .unterminatedMacroSubexpression] else []),
              c.quiet = true := by
            split <;> simp [Callback.quiet, errorAt, diagnostic]
          refine ⟨.foundStartOfReplacementOperator name :: operandCalls
              ++ .foundEndOfReplacementOperator name (index string rest)
              :: (if rest = [] then [errorAt string rest .unterminatedMacroSubexpression] else []), rest, ?_,
            le_succ_of_le hle, hhead, raises_replacement hreport.raises hquiet, ?_⟩
          · simp [parseOperator, hstop, hempty, hparse, ok_bind, assert_of hhead]
          · intro escapes outer ho
            have hscan := hreport.scanned escapes outer ho
            have hnames := startedReplacements_of_quiet hquiet
            rw [singleton_append] at hscan ⊢
            rw [hcolon, scanOperators]
            unfold startedReplacements at hscan hnames ⊢
            simp [scanStep, hnotName, hempty, hscan, hnames]
      · have hskip := scan_skipped_until hd (c :: afterC)
        refine ⟨[diagnostic string (index string (c :: afterC)) (index string afterC) .invalidOperatorCharacter
            .error], (scanUntil (fun c => c = ascii ':' ∨ c = d) (c :: afterC)).2,
          by simp [parseOperator, hstop, hequals], hskip.1, hskip.2.1,
          (raises_of_quiet (by simp [Callback.quiet, diagnostic])).mono (zero_le _), ?_⟩
        intro escapes outer _
        have hname' := hrest c rfl
        rw [singleton_append, hcolon, ← hskip.2.2]
        simp [scanOperators, scanStep, hname', hequals, startedReplacements, diagnostic]

theorem operators_step (hfrag : FragmentSpec string fuel) (hopers : OperatorsSpec string fuel) :
    OperatorsSpec string (fuel + 1) := by
  intro always d start hd hfuel hstart
  unfold parseOperators
  by_cases hcolon : start.head? = some (ascii ':')
  · obtain ⟨tail, rfl⟩ := head?_eq_some_iff.mp hcolon
    obtain ⟨name, rest, hscan, rfl, hname, hrest⟩ := scanUntil_spec (fun c => !isValidOperatorNameChar c) tail
    simp only [length_cons, length_append] at hfuel
    obtain ⟨calls, rest', hparse, hle, hhead, hreport⟩ :=
      operator_spec hd always hfrag
        (fun c hc => by simpa using hname c hc) (fun c hc => by simpa using hrest c hc) (by omega)
    obtain ⟨more, rest'', hparse', hle', hhead', hreport'⟩ := hopers always d rest' hd (by omega) hhead
    simp only [hcolon, ne_eq, not_true_eq_false, if_false, tail_cons, hscan, hparse, hparse', ok_bind]
    refine ⟨_, rest'', rfl, by simp; omega, hhead', hreport.trans hreport'⟩
  · have hend : start = [] ∨ start.head? = some d := by tauto
    exact ⟨[], start, by simp [hcolon], le_refl _, hend, raises_nil 1, fun _ _ _ => rfl⟩

/-- A macro name is evaluated into the subresult of its reference. -/
theorem raises_name {nameCalls : List Callback} (wasBracketed : Bool) (hname : Raises 0 nameCalls) :
    Raises 1 (.foundStartOfMacroName :: nameCalls ++ [.foundEndOfMacroName wasBracketed]) := by
  intro levels height hneed
  rw [cons_append, heightAfter_cons (by rfl), heightAfter_append (hname _ _ (zero_le _))]
  simp [heightAfter, emit, emitted, effects, effect, startedReplacements]
  omega

/-- A subexpression is merged into the buffer it was opened over. -/
theorem raises_substitution (always : Bool) (h : Raises 1 calls) :
    Raises 0 (.foundStartOfSubstitutionSubexpression always :: calls
      ++ [.foundEndOfSubstitutionSubexpression always]) := by
  intro levels height _
  rw [cons_append, heightAfter_cons (by rfl), heightAfter_append (h _ _ (by omega))]
  simp [heightAfter, emit, emitted, effects, effect, startedReplacements]

theorem startedReplacements_substitution (always : Bool) (calls : List Callback) :
    startedReplacements (.foundStartOfSubstitutionSubexpression always :: calls
      ++ [.foundEndOfSubstitutionSubexpression always]) = startedReplacements calls := by
  simp [startedReplacements]

theorem startedReplacements_name (wasBracketed : Bool) (calls : List Callback) :
    startedReplacements (.foundStartOfMacroName :: calls ++ [.foundEndOfMacroName wasBracketed])
      = startedReplacements calls := by
  simp [startedReplacements]

/-- A bracketed reference: a scan that enters the bracket leaves it where the reference ends. -/
theorem bracketed_spec {c : UInt8} (hd : getClosingDelimiter c = some d) (always : Bool) (orig : Text) {afterC : Text}
    (hfrag : FragmentSpec string fuel) (hopers : OperatorsSpec string fuel) (hfuel : 2 * afterC.length + 2 ≤ fuel) :
    ∃ calls rest, parseBracketed string (parseSubstitutionSubexpressionFragment string fuel true d)
        (parseOperators string fuel always d) orig c d afterC = .ok (calls, rest)
      ∧ rest.length ≤ afterC.length ∧ Raises 1 calls
      ∧ ∀ escapes outer, (∀ e ∈ outer, Delimiter e) → scanOperators escapes .text (d :: outer) afterC
          = startedReplacements calls ++ scanOperators escapes .text outer rest := by
  have hdelim := delimiter_of_closing hd
  obtain ⟨nameCalls, afterName, hparse, hle, hhead, hname⟩ := hfrag true d afterC hdelim hfuel
  obtain ⟨operatorCalls, afterOperators, hparse', hle', hhead', hoperators⟩ :=
    hopers always d afterName hdelim (by omega) hhead
  unfold parseBracketed
  simp only [hparse, hparse', ok_bind, assert_of hhead, assert_of hhead']
  -- the diagnostics are quiet, so that the two parts are the name and the operators
  generalize hpre : (if c ≠ ascii '(' then _ else [] : List Callback) = pre
  generalize hmid : (if afterName = [] then _ else _ : List Callback) = mid
  have hpreQuiet : ∀ e ∈ pre, e.quiet = true := by
    rw [← hpre]
    split <;> simp [Callback.quiet, diagnostic]
  have hmidQuiet : ∀ e ∈ mid, e.quiet = true := by
    rw [← hmid]
    split
    · simp [Callback.quiet, diagnostic]
    · split <;> simp [Callback.quiet, errorAt, diagnostic]
  have hsplit : pre ++ Callback.foundStartOfMacroName :: nameCalls ++ mid
        ++ .foundEndOfMacroName true :: operatorCalls
      = pre ++ ((.foundStartOfMacroName :: (nameCalls ++ mid) ++ [.foundEndOfMacroName true])
        ++ operatorCalls) := by simp
  have hnames : startedReplacements (pre ++ Callback.foundStartOfMacroName :: nameCalls ++ mid
        ++ .foundEndOfMacroName true :: operatorCalls)
      = startedReplacements nameCalls ++ startedReplacements operatorCalls := by
    rw [hsplit, startedReplacements_append, startedReplacements_append, startedReplacements_name,
      startedReplacements_append, startedReplacements_of_quiet hpreQuiet, startedReplacements_of_quiet hmidQuiet]
    simp
  refine ⟨_, _, rfl, ?_, ?_, ?_⟩
  · split
    · simp; omega
    · omega
  · rw [hsplit]
    refine ((raises_of_quiet hpreQuiet).mono (zero_le _)).append (Raises.append ?_ hoperators.raises)
    exact raises_name true (hname.raises.append (raises_of_quiet hmidQuiet))
  · intro escapes outer ho
    have h1 := hname.scanned escapes outer ho
    have h2 := hoperators.scanned escapes outer ho
    rw [singleton_append] at h1 h2
    rw [h1, h2, hnames, append_assoc]
    rcases hhead' with rfl | hclose
    · simp [scanOperators]
    · obtain ⟨tail, rfl⟩ := head?_eq_some_iff.mp hclose
      simp [scanOperators, scanStep, scanText, hdelim.ne_dollar]

/-- A character of a macro name is skipped in text. -/
theorem scanText_macroName {escapes : Bool} {delims : List UInt8} (hdelims : ∀ d ∈ delims, Delimiter d)
    {c : UInt8} (hc : isValidMacroNameNthChar c = true) : scanText escapes delims c = (.text, delims) := by
  have hdollar : c ≠ ascii '$' := ne_of_macroName hc (by decide)
  have hbackslash : c ≠ ascii '\\' := ne_of_macroName hc (by decide)
  have hcolon : c ≠ ascii ':' := ne_of_macroName hc (by decide)
  cases delims with
  | nil => simp [scanText, hdollar, hbackslash]
  | cons d outer =>
    have hd : c ≠ d := ne_of_macroName hc (hdelims d (by simp)).not_macroName
    simp [scanText, hdollar, hcolon, hd]

theorem bare_spec (c : UInt8) {afterC : Text} (hsubst : SubstitutionSpec string fuel)
    (hfuel : 2 * afterC.length + 1 ≤ fuel) :
    ∃ calls rest, parseBare (parseSubstitutionSubexpression string fuel true) c afterC = .ok (calls, rest)
      ∧ rest.length ≤ afterC.length ∧ Raises 1 calls
      ∧ ∀ escapes outer, (∀ e ∈ outer, Delimiter e) → scanOperators escapes .text outer afterC
          = startedReplacements calls ++ scanOperators escapes .text outer rest := by
  have hle : (afterC.dropWhile isValidMacroNameNthChar).length ≤ afterC.length :=
    (dropWhile_suffix _).length_le
  have hskip : ∀ escapes outer, (∀ e ∈ outer, Delimiter e) → scanOperators escapes .text outer afterC
      = scanOperators escapes .text outer (afterC.dropWhile isValidMacroNameNthChar) := by
    intro escapes outer ho
    have hname : ∀ e ∈ afterC.takeWhile isValidMacroNameNthChar, scanText escapes outer e = (.text, outer) :=
      fun e he => scanText_macroName ho (mem_takeWhile_imp he)
    have hrun := scan_text_append (afterC.dropWhile isValidMacroNameNthChar) hname
    rwa [takeWhile_append_dropWhile] at hrun
  unfold parseBare
  have hlt : (afterC.dropWhile isValidMacroNameNthChar).length < (c :: afterC).length := by
    simpa using lt_succ_of_le hle
  generalize afterC.dropWhile isValidMacroNameNthChar = afterName at *
  simp only [assert_of hlt, ok_bind]
  by_cases hnested : afterName.head? = some (ascii '$') ∧ afterName.tail.head? = some (ascii '(')
  · obtain ⟨inner, rest, hparse, hlt', hreport⟩ := hsubst true afterName hnested.1 (by omega)
    rw [if_pos hnested]
    simp only [hparse, ok_bind]
    have hquiet : Raises 0 [Callback.foundLiteralStringFragment (slice (c :: afterC) afterName)] :=
      raises_of_quiet (by simp [Callback.quiet])
    refine ⟨_, rest, rfl, by omega, raises_name false (hquiet.append hreport.raises), ?_⟩
    intro escapes outer ho
    have hscan := hreport.scanned escapes outer ho
    rw [nil_append] at hscan
    rw [hskip escapes outer ho, hscan]
    simp [startedReplacements]
  · rw [if_neg hnested]
    refine ⟨_, afterName, rfl, hle, raises_name false (raises_of_quiet (by simp [Callback.quiet])), ?_⟩
    intro escapes outer ho
    rw [hskip escapes outer ho]
    simp [startedReplacements]

/-- Callbacks that stand between the two of a subexpression, with how a scan goes on after the `$`. -/
theorem report_substitution {always : Bool} {tail : Text} (h : Raises 1 calls)
    (hscan : ∀ escapes outer, (∀ e ∈ outer, Delimiter e) → scanOperators escapes .dollar outer tail
      = startedReplacements calls ++ scanOperators escapes .text outer rest) :
    Report 0 [] (ascii '$' :: tail) (.foundStartOfSubstitutionSubexpression always :: calls
      ++ [.foundEndOfSubstitutionSubexpression always]) rest where
  raises := raises_substitution always h
  scanned escapes outer ho := by
    rw [startedReplacements_substitution, nil_append, ← hscan escapes outer ho]
    simp [scanOperators, scanStep, scanText]

theorem substitution_step (hsubst : SubstitutionSpec string fuel) (hfrag : FragmentSpec string fuel)
    (hopers : OperatorsSpec string fuel) : SubstitutionSpec string (fuel + 1) := by
  intro always start hstart hfuel
  obtain ⟨tail, rfl⟩ := head?_eq_some_iff.mp hstart
  simp only [length_cons] at hfuel
  unfold parseSubstitutionSubexpression
  simp only [precondition_of hstart, ok_bind, tail_cons]
  have hquiet : ∀ s : Text, Raises 1 [.foundLiteralStringFragment s] := fun s =>
    (raises_of_quiet (by simp [Callback.quiet])).mono (zero_le _)
  cases tail with
  | nil =>
    refine ⟨_, [], rfl, by simp, report_substitution ?_ ?_⟩
    · exact (raises_of_quiet (by simp [Callback.quiet, diagnostic])).mono (zero_le _)
    · intro escapes outer _
      simp [scanOperators, startedReplacements, diagnostic]
  | cons c afterC =>
    simp only [length_cons] at hfuel
    cases hclose : getClosingDelimiter c with
    | some d =>
      obtain ⟨calls, rest, hparse, hle, hraises, hscan⟩ :=
        bracketed_spec hclose always (ascii '$' :: c :: afterC) hfrag hopers
          (show 2 * afterC.length + 2 ≤ fuel by omega)
      simp only [hclose, hparse, ok_bind]
      refine ⟨_, rest, rfl, by simp; omega, report_substitution hraises ?_⟩
      intro escapes outer ho
      rw [← hscan escapes outer ho]
      simp [scanOperators, scanStep, hclose]
    | none =>
      by_cases hfirst : isValidMacroName1stChar c = true
      · obtain ⟨calls, rest, hparse, hle, hraises, hscan⟩ :=
          bare_spec c hsubst (show 2 * afterC.length + 1 ≤ fuel by omega)
        simp only [hclose, hfirst, if_true, hparse, ok_bind]
        refine ⟨_, rest, rfl, by simp; omega, report_substitution hraises ?_⟩
        intro escapes outer ho
        have hname : isValidMacroNameNthChar c = true := by
          simp only [isValidMacroName1stChar, Bool.or_eq_true] at hfirst
          rcases hfirst with h | h <;> simp [isValidMacroNameNthChar, h]
        have hdollar : c ≠ ascii '$' := ne_of_macroName hname (by decide)
        rw [← hscan escapes outer ho]
        simp [scanOperators, scanStep, hclose, hdollar, scanText_macroName ho hname]
      · simp only [hclose, hfirst, Bool.false_eq_true, if_false]
        refine ⟨_, _, rfl, ?_, report_substitution (hquiet _) ?_⟩
        · split
          · simp only [length_cons]
            omega
          · simp
        · intro escapes outer _
          by_cases hdollar : c = ascii '$'
          · subst hdollar
            simp [scanOperators, scanStep, hclose, startedReplacements]
          · simp [scanOperators, scanStep, hclose, hdollar, startedReplacements]

theorem parse_specs (string : Text) (fuel : Nat) :
    SubstitutionSpec string fuel ∧ FragmentSpec string fuel ∧ OperatorsSpec string fuel := by
  induction fuel with
  | zero =>
    refine ⟨?_, ?_, ?_⟩
    · intro _ _ _ h
      omega
    · intro _ _ _ _ h
      omega
    · intro _ _ _ _ h
      omega
  | succ fuel ih =>
    obtain ⟨hsubst, hfrag, hopers⟩ := ih
    exact ⟨substitution_step hsubst hfrag hopers, fragment_step hsubst hfrag, operators_step hfrag hopers⟩

/-! ## Strings -/

theorem parseAsStringLoop_spec (string : Text) (fuel : Nat) (start : Text)
    (hfuel : 2 * start.length + 2 ≤ fuel) :
    ∃ calls, parseAsStringLoop string fuel start = .ok (calls, []) ∧ Raises 0 calls
      ∧ scanOperators false .text [] start = startedReplacements calls := by
  induction fuel generalizing start with
  | zero => omega
  | succ fuel ih =>
    unfold parseAsStringLoop
    by_cases hstart : start = []
    · subst hstart
      exact ⟨[], by simp, raises_nil 0, rfl⟩
    · by_cases hdollar : start.head? = some (ascii '$')
      · obtain ⟨calls, rest, hparse, hlt, hreport⟩ := (parse_specs string fuel).1 true start hdollar (by omega)
        obtain ⟨more, hparse', hraises', hscan'⟩ := ih rest (by omega)
        simp only [hstart, if_false, hdollar, if_true, hparse, hparse', ok_bind]
        refine ⟨_, rfl, hreport.raises.append hraises', ?_⟩
        have hscan := hreport.scanned false [] (by simp)
        rw [append_nil] at hscan
        rw [hscan, hscan', startedReplacements_append]
      · obtain ⟨lit, rest, hscan, hsplit, hlit, hstop⟩ := scanUntil_spec (fun c => c = ascii '$') start
        have hlt : rest.length < start.length := by
          -- the first character is not a `$`, so that the scan consumes it
          cases lit with
          | nil =>
            rw [nil_append] at hsplit
            obtain ⟨c, tail, rfl⟩ := exists_cons_of_ne_nil hstart
            have := hstop c (by simp [← hsplit])
            simp only [decide_eq_true_eq] at this
            exact absurd (by simp [this]) hdollar
          | cons c lit =>
            simp only [hsplit, length_append, length_cons]
            omega
        obtain ⟨more, hparse', hraises', hscan'⟩ := ih rest (by omega)
        simp only [hstart, hdollar, if_false, hscan, hparse', ok_bind]
        refine ⟨_, rfl, (raises_of_quiet (quiet_literalFragment _)).append hraises', ?_⟩
        rw [hsplit, scan_text_append, hscan', startedReplacements_append,
          startedReplacements_of_quiet (quiet_literalFragment _), nil_append]
        intro c hc
        have := hlit c hc
        simp only [decide_eq_false_iff_not] at this
        simp [scanText, this]

theorem parseAsString_spec (string : Text) (fuel : Nat) (hfuel : enoughFuel string ≤ fuel) :
    ∃ calls, parseAsString string fuel = .ok (calls, []) ∧ Raises 0 calls
      ∧ replacementOperators false string = startedReplacements calls := by
  unfold parseAsString
  by_cases hstring : string = []
  · subst hstring
    exact ⟨_, rfl, raises_of_quiet (by simp [Callback.quiet]), rfl⟩
  · obtain ⟨calls, hparse, hraises, hscan⟩ := parseAsStringLoop_spec string fuel string hfuel
    refine ⟨calls, ?_, hraises, hscan⟩
    simp [hstring, hparse, ok_bind, assert_of]

/-! ## String lists -/

/-- The text that a list element passes over holds the replacement operators of its callbacks. -/
structure ElementReport (start : Text) (calls : List Callback) (rest : Text) : Prop where
  raises : Raises 0 calls
  scanned : scanOperators true .text [] start = startedReplacements calls ++ scanOperators true .text [] rest

theorem ElementReport.trans {s r t : Text} {more : List Callback} (h : ElementReport s calls r)
    (h' : ElementReport r more t) : ElementReport s (calls ++ more) t where
  raises := h.raises.append h'.raises
  scanned := by rw [h.scanned, h'.scanned, startedReplacements_append, append_assoc]

theorem elementReport_of_quiet {s r : Text} (h : ∀ c ∈ calls, c.quiet = true)
    (hscan : scanOperators true .text [] s = scanOperators true .text [] r) : ElementReport s calls r where
  raises := raises_of_quiet h
  scanned := by rw [startedReplacements_of_quiet h, hscan, nil_append]

theorem Report.element {start : Text} (h : Report 0 [] start calls rest) :
    ElementReport start calls rest where
  raises := h.raises
  scanned := by simpa using h.scanned true [] (by simp)

/-- A character that means nothing to a scan outside of brackets. -/
theorem scan_cons_plain {c : UInt8} (rest : Text) (hdollar : c ≠ ascii '$') (hbackslash : c ≠ ascii '\\') :
    scanOperators true .text [] (c :: rest) = scanOperators true .text [] rest := by
  simp [scanOperators, scanStep, scanText, hdollar, hbackslash]

theorem scan_cons_escaped (c : UInt8) (rest : Text) :
    scanOperators true .text [] (ascii '\\' :: c :: rest) = scanOperators true .text [] rest := by
  have hdollar : ascii '\\' ≠ ascii '$' := by decide
  simp [scanOperators, scanStep, scanText, hdollar]

theorem toggleQuotes_spec {quote : UInt8} (hdollar : quote ≠ ascii '$') (hbackslash : quote ≠ ascii '\\')
    (state current : QuoteState) (after : Text) :
    ∃ calls quotes rest, toggleQuotes quote state current after = (calls, quotes, rest)
      ∧ rest.length ≤ after.length ∧ ElementReport (quote :: after) calls rest := by
  unfold toggleQuotes
  split
  · rename_i h
    obtain ⟨tail, rfl⟩ := head?_eq_some_iff.mp h.2
    refine ⟨_, _, _, rfl, by simp, elementReport_of_quiet (by simp [Callback.quiet]) ?_⟩
    rw [scan_cons_plain _ hdollar hbackslash, tail_cons, scan_cons_plain _ hdollar hbackslash]
  · exact ⟨_, _, _, rfl, le_refl _,
      elementReport_of_quiet (by simp [Callback.quiet]) (scan_cons_plain _ hdollar hbackslash)⟩

/-- How an element goes on after a part of it whose callbacks are known. -/
theorem element_continue {fuel : Nat} {start mark : Text} {current : QuoteState}
    (hreport : ElementReport start calls rest)
    (ih : ∃ more quotes mark' rest', elementLoop string fuel current mark rest = .ok (more, quotes, mark', rest')
      ∧ rest'.length ≤ rest.length ∧ (rest' = [] ∨ isAtWhitespace rest' = true)
      ∧ ElementReport rest more rest') (hle : rest.length ≤ start.length) :
    ∃ more quotes mark' rest', (do
        let (more, final) ← elementLoop string fuel current mark rest
        .ok (calls ++ more, final)) = Except.ok (more, quotes, mark', rest')
      ∧ rest'.length ≤ start.length ∧ (rest' = [] ∨ isAtWhitespace rest' = true)
      ∧ ElementReport start more rest' := by
  obtain ⟨more, quotes, mark', rest', hloop, hle', hend, hreport'⟩ := ih
  simp only [hloop, ok_bind]
  exact ⟨_, quotes, mark', rest', rfl, hle'.trans hle, hend, hreport.trans hreport'⟩

theorem elementLoop_spec (string : Text) (fuel : Nat) (current : QuoteState) (mark start : Text)
    (hfuel : 2 * start.length + 2 ≤ fuel) :
    ∃ calls quotes mark' rest, elementLoop string fuel current mark start = .ok (calls, quotes, mark', rest)
      ∧ rest.length ≤ start.length ∧ (rest = [] ∨ isAtWhitespace rest = true)
      ∧ ElementReport start calls rest := by
  induction fuel generalizing current mark start with
  | zero => omega
  | succ fuel ih =>
    unfold elementLoop
    have hflush : ∀ m r, Raises 0 (flush m r) := fun m r => raises_of_quiet (quiet_flush m r)
    have hflushed : ∀ {m r s t calls}, ElementReport s calls t → ElementReport s (flush m r ++ calls) t :=
      fun h => (elementReport_of_quiet (quiet_flush _ _) rfl).trans h
    cases start with
    | nil => exact ⟨[], current, mark, [], rfl, le_refl _, .inl rfl, elementReport_of_quiet (by simp) rfl⟩
    | cons c after =>
      simp only [length_cons] at hfuel
      by_cases hbackslash : c = ascii '\\'
      · subst hbackslash
        cases after with
        | nil =>
          simp only [if_true]
          refine ⟨_, current, _, [], rfl, by simp, .inl rfl, elementReport_of_quiet ?_ ?_⟩
          · intro e he
            simp only [mem_append, mem_singleton] at he
            rcases he with (he | rfl) | rfl
            · exact quiet_flush _ _ e he
            · rfl
            · rfl
          · simp [scanOperators, scanStep, scanText]
        | cons e afterEscaped =>
          simp only [length_cons] at hfuel
          simp only [if_true]
          refine element_continue (hflushed (elementReport_of_quiet (by simp [Callback.quiet]) ?_))
            (ih _ _ afterEscaped (by omega)) (by simp; omega)
          exact scan_cons_escaped e afterEscaped
      · by_cases hdollar : c = ascii '$'
        · subst hdollar
          obtain ⟨calls, rest, hparse, hlt, hreport⟩ :=
            (parse_specs string fuel).1 (current ≠ .noQuotes) (ascii '$' :: after) rfl (by simp; omega)
          simp only [length_cons] at hlt
          simp only [hbackslash, if_false, if_true, hparse, ok_bind]
          exact element_continue (hflushed hreport.element) (ih _ _ rest (by omega)) (by simp; omega)
        · simp only [hbackslash, hdollar, if_false]
          have hquote : ∀ quote state, quote = c → ∃ calls quotes rest,
              toggleQuotes quote state current after = (calls, quotes, rest)
                ∧ rest.length ≤ after.length ∧ ElementReport (c :: after) calls rest := by
            rintro quote state rfl
            exact toggleQuotes_spec hdollar hbackslash state current after
          by_cases hdouble : c = ascii '"' ∧ current ≠ .singleQuotes
          · obtain ⟨calls, quotes, rest, htoggle, hle, hreport⟩ := hquote (ascii '"') .doubleQuotes hdouble.1.symm
            have hcurrent : current = .noQuotes ∨ current = .doubleQuotes := by
              cases current <;> simp_all
            rw [if_pos hdouble]
            simp only [assert_of hcurrent, ok_bind, htoggle]
            exact element_continue (hflushed hreport) (ih _ _ rest (by omega)) (by simp; omega)
          · rw [if_neg hdouble]
            by_cases hsingle : c = ascii '\'' ∧ current ≠ .doubleQuotes
            · obtain ⟨calls, quotes, rest, htoggle, hle, hreport⟩ :=
                hquote (ascii '\'') .singleQuotes hsingle.1.symm
              have hcurrent : current = .noQuotes ∨ current = .singleQuotes := by
                cases current <;> simp_all
              rw [if_pos hsingle]
              simp only [assert_of hcurrent, ok_bind, htoggle]
              exact element_continue (hflushed hreport) (ih _ _ rest (by omega)) (by simp; omega)
            · rw [if_neg hsingle]
              by_cases hspace : current = .noQuotes ∧ isAtWhitespace (c :: after) = true
              · rw [if_pos hspace]
                exact ⟨[], current, mark, _, rfl, le_refl _, .inr hspace.2, elementReport_of_quiet (by simp) rfl⟩
              · rw [if_neg hspace]
                obtain ⟨calls, quotes, mark', rest, hloop, hle, hend, hreport⟩ := ih current mark after (by omega)
                refine ⟨calls, quotes, mark', rest, hloop, by simp; omega, hend, hreport.raises, ?_⟩
                rw [scan_cons_plain after hdollar hbackslash, hreport.scanned]

theorem parseQuotedExpressionStringElement_spec (string : Text) (fuel : Nat) (start : Text)
    (hfuel : 2 * start.length + 2 ≤ fuel) (hstart : start ≠ [] ∧ isAtWhitespace start = false) :
    ∃ calls rest, parseQuotedExpressionStringElement string fuel start = .ok (calls, rest)
      ∧ rest.length ≤ start.length ∧ (rest = [] ∨ isAtWhitespace rest = true)
      ∧ ElementReport start calls rest := by
  obtain ⟨calls, quotes, mark, rest, hloop, hle, hend, hreport⟩ :=
    elementLoop_spec string fuel .noQuotes start start hfuel
  unfold parseQuotedExpressionStringElement
  simp only [precondition_of hstart, hloop, ok_bind, precondition_of hend]
  have hquiet : ∀ c ∈ (if quotes ≠ .noQuotes then [errorAt string rest .unterminatedQuotation] else []),
      c.quiet = true := by
    split <;> simp [Callback.quiet, errorAt, diagnostic]
  exact ⟨_, rest, rfl, hle, hend, (hreport.trans (elementReport_of_quiet (quiet_flush _ _) rfl)).trans
    (elementReport_of_quiet hquiet rfl)⟩

theorem parseWhitespace_spec (asSeparator : Bool) (start : Text) :
    ∃ calls rest, parseWhitespace asSeparator start = (calls, rest) ∧ isAtWhitespace rest = false
      ∧ rest.length ≤ start.length ∧ (isAtWhitespace start = true → rest.length < start.length)
      ∧ ElementReport start calls rest := by
  unfold parseWhitespace
  by_cases hspace : isAtWhitespace start = true
  · have hdrop : isAtWhitespace (start.dropWhile fun c => isAtWhitespace [c]) = false := by
      cases h : start.dropWhile fun c => isAtWhitespace [c] with
      | nil => rfl
      | cons c rest =>
        have := head?_dropWhile_not (fun c => isAtWhitespace [c]) start
        rw [h] at this
        simpa [isAtWhitespace] using this
    have hle : (start.dropWhile fun c => isAtWhitespace [c]).length ≤ start.length :=
      (dropWhile_suffix _).length_le
    have hlt : (start.dropWhile fun c => isAtWhitespace [c]).length < start.length := by
      cases start with
      | nil => simp [isAtWhitespace] at hspace
      | cons c after =>
        have hc : isAtWhitespace [c] = true := by simpa [isAtWhitespace] using hspace
        rw [dropWhile_cons_of_pos (p := fun c => isAtWhitespace [c]) hc]
        exact lt_succ_of_le (dropWhile_suffix _).length_le
    have hscan : scanOperators true .text [] start
        = scanOperators true .text [] (start.dropWhile fun c => isAtWhitespace [c]) := by
      have hread : ∀ c ∈ start.takeWhile fun c => isAtWhitespace [c], scanText true [] c = (.text, []) := by
        intro c hc
        have hwhite : isAtWhitespace [c] = true := mem_takeWhile_imp (p := fun c => isAtWhitespace [c]) hc
        have hne : ∀ e, isAtWhitespace [e] = false → c ≠ e := by
          rintro e he rfl
          rw [hwhite] at he
          cases he
        simp [scanText, hne (ascii '$') (by decide), hne (ascii '\\') (by decide)]
      have hrun := scan_text_append (start.dropWhile fun c => isAtWhitespace [c]) hread
      rwa [takeWhile_append_dropWhile] at hrun
    simp only [hspace, if_true]
    split
    · exact ⟨_, _, rfl, hdrop, hle, fun _ => hlt, elementReport_of_quiet (by simp [Callback.quiet]) hscan⟩
    · exact ⟨_, _, rfl, hdrop, hle, fun _ => hlt, elementReport_of_quiet (by simp [Callback.quiet]) hscan⟩
  · simp only [Bool.not_eq_true] at hspace
    refine ⟨[], start, by simp [hspace], hspace, le_refl _, ?_, elementReport_of_quiet (by simp) rfl⟩
    intro h
    rw [hspace] at h
    cases h

theorem parseAsStringListLoop_spec (string : Text) (fuel : Nat) (start : Text)
    (hfuel : 2 * start.length + 2 ≤ fuel) (hstart : start = [] ∨ isAtWhitespace start = true) :
    ∃ calls, parseAsStringListLoop string fuel start = .ok (calls, []) ∧ ElementReport start calls [] := by
  induction fuel generalizing start with
  | zero => omega
  | succ fuel ih =>
    unfold parseAsStringListLoop
    rcases hstart with rfl | hspace
    · exact ⟨[], by simp, elementReport_of_quiet (by simp) rfl⟩
    · have hne : start ≠ [] := by
        rintro rfl
        cases hspace
      obtain ⟨whitespace, rest, hwhite, hnot, _, hlt, hreport⟩ := parseWhitespace_spec true start
      have hshorter := hlt hspace
      simp only [hne, if_false, hwhite]
      by_cases hrest : rest = []
      · subst hrest
        exact ⟨whitespace, by simp, hreport⟩
      · obtain ⟨calls, rest', hparse, hle, hend, hreport'⟩ :=
          parseQuotedExpressionStringElement_spec string fuel rest (by omega) ⟨hrest, hnot⟩
        obtain ⟨more, hparse', hreport''⟩ := ih rest' (by omega) hend
        simp only [hrest, if_false, hparse, hparse', ok_bind, assert_of hend]
        exact ⟨_, rfl, (hreport.trans hreport').trans hreport''⟩

theorem parseAsStringList_spec (string : Text) (fuel : Nat) (hfuel : enoughFuel string ≤ fuel) :
    ∃ calls, parseAsStringList string fuel = .ok (calls, []) ∧ Raises 0 calls
      ∧ replacementOperators true string = startedReplacements calls := by
  unfold enoughFuel at hfuel
  have hfinish : ∀ {calls}, ElementReport string calls [] →
      Raises 0 calls ∧ replacementOperators true string = startedReplacements calls := by
    intro calls h
    exact ⟨h.raises, by simpa [replacementOperators, scanOperators] using h.scanned⟩
  obtain ⟨whitespace, rest, hwhite, hnot, hle, _, hreport⟩ := parseWhitespace_spec false string
  unfold parseAsStringList
  simp only [hwhite]
  by_cases hrest : rest = []
  · subst hrest
    exact ⟨whitespace, by simp, hfinish hreport⟩
  · obtain ⟨calls, rest', hparse, hle', hend, hreport'⟩ :=
      parseQuotedExpressionStringElement_spec string fuel rest (by omega) ⟨hrest, hnot⟩
    obtain ⟨more, hparse', hreport''⟩ := parseAsStringListLoop_spec string fuel rest' (by omega) hend
    simp only [hrest, if_false, hparse, hparse', ok_bind, assert_of]
    exact ⟨_, rfl, hfinish ((hreport.trans hreport').trans hreport'')⟩

end Specs

/-! ## Runs of the machine -/

section Runs

variable {β : Type} (fns : StringFunctions) (resolve : Text → Resolution β)
  (evaluate : β → Bool → MacroEvaluationResultBuilder → Except Halt MacroEvaluationResultBuilder)
  (always : Bool)

/-- The values that names resolve to can be evaluated. -/
def Returning : Prop := ∀ s v, resolve s = .value v → ∀ asString b, ∃ b', evaluate v asString b = .ok b'

variable {evaluate} {resolve}

@[simp]
theorem length_modifyTop (m : Machine) (f : MacroEvaluationResultBuilder → MacroEvaluationResultBuilder) :
    (m.modifyTop f).subresults.length = m.subresults.length := by
  unfold Machine.modifyTop
  split
  · rename_i h
    simp [h]
  · rename_i h
    simp [h]

/-- An instruction that finds the buffers it needs executes, and leaves as many as its effect says. -/
theorem executeInstruction_effect (hev : Returning resolve evaluate) (m : Machine) (i : EvalInstr) {height : Nat}
    (h : effect m.subresults.length i = some height) :
    ∃ m', executeInstruction fns resolve evaluate always m i = .ok m' ∧ m'.subresults.length = height := by
  obtain ⟨stack, rb⟩ := m
  cases i with
  | appendLiteral s | beginSubresult =>
    refine ⟨_, rfl, ?_⟩
    simpa [effect] using h
  | appendStringFormOnlyLiteral s | setNeedsListSeparator s =>
    refine ⟨_, rfl, ?_⟩
    split <;> simpa [effect] using h
  | evalNamedMacro asString preserves =>
    rcases stack with _ | ⟨nb, _ | ⟨top, below⟩⟩
    · simp [effect] at h
    · simp [effect] at h
    · have hheight : below.length + 1 = height := by simpa [effect] using h
      simp only [executeInstruction]
      cases hresolve : resolve nb.buildString with
      | unknownMacro =>
        refine ⟨_, rfl, ?_⟩
        split <;> simpa using hheight
      | noValue type =>
        dsimp only
        split
        · exact ⟨_, rfl, by simpa using hheight⟩
        · split
          · exact ⟨_, rfl, by simpa using hheight⟩
          · exact ⟨_, rfl, by simpa using hheight⟩
      | value v =>
        obtain ⟨top', htop⟩ := hev _ v hresolve (asString || always) top
        simp only [htop]
        exact ⟨_, rfl, by simpa using hheight⟩
  | mergeSubresult | applyRetrievalOperator op =>
    rcases stack with _ | ⟨sb, rest⟩
    · simp [effect] at h
    · refine ⟨_, rfl, ?_⟩
      simpa [effect] using h
  | applyReplacementOperator op =>
    rcases stack with _ | ⟨operand, _ | ⟨sb, rest⟩⟩
    · simp [effect] at h
    · simp [effect] at h
    · refine ⟨_, rfl, ?_⟩
      simpa [effect] using h

theorem runInstructions_effects (hev : Returning resolve evaluate) (is : List EvalInstr) (m : Machine) {height : Nat}
    (h : effects is m.subresults.length = some height) :
    ∃ m', runInstructions fns resolve evaluate always is m = .ok m' ∧ m'.subresults.length = height := by
  induction is generalizing m with
  | nil => exact ⟨m, rfl, Option.some.inj h⟩
  | cons i is ih =>
    obtain ⟨middle, hi, his⟩ : ∃ middle, effect m.subresults.length i = some middle
        ∧ effects is middle = some height := by
      simpa [effects, Option.bind_eq_some_iff] using h
    obtain ⟨m', hm', hlen⟩ := executeInstruction_effect fns always hev m i hi
    rw [runInstructions_cons, hm', ok_bind]
    exact ih m' (by rw [hlen]; exact his)

end Runs

/-- In every context the instructions run without popping or reading the top of an empty stack, and the stack
ends empty. What a context contributes is what names resolve to and how the values of macros are evaluated. -/
def StackBalanced (instructions : List EvalInstr) : Prop :=
  ∀ (β : Type) (fns : StringFunctions) (resolve : Text → Resolution β)
    (evaluate : β → Bool → MacroEvaluationResultBuilder → Except Halt MacroEvaluationResultBuilder)
    (alwaysEvalAsString : Bool) (resultBuilder : MacroEvaluationResultBuilder), Returning resolve evaluate →
    ∃ resultBuilder', runInstructions fns resolve evaluate alwaysEvalAsString instructions ⟨[], resultBuilder⟩
      = .ok ⟨[], resultBuilder'⟩

/-- A parse of a string comes to its end with all assertions and preconditions true, and emits a balanced
program. -/
def ParsesBalanced (parse : Nat → Parsed) (string : Text) : Prop :=
  ∀ fuel, enoughFuel string ≤ fuel →
    ∃ calls, parse fuel = .ok (calls, []) ∧ StackBalanced (emit {} calls)

/-- The replacement operators of these names are known. -/
def Known (names : List Text) : Prop :=
  ∀ name ∈ names, (MacroEvaluationReplacementOperator.ofName name).isSome = true

instance (names : List Text) : Decidable (Known names) := List.decidableBAll ..

theorem unknownCount_eq_zero {names : List Text} : unknownCount names = 0 ↔ Known names := by
  unfold unknownCount Known
  rw [countP_eq_zero]
  refine forall₂_congr fun name _ => ?_
  cases MacroEvaluationReplacementOperator.ofName name <;> simp

/-- String functions that change nothing. -/
def noFunctions : StringFunctions where
  retrieve _ s := s
  replace _ s _ := s

/-- Callbacks that raise the stack by the unknown operators balance it if there are none. -/
theorem stackBalanced_iff (h : Raises 0 calls) :
    StackBalanced (emit {} calls) ↔ Known (startedReplacements calls) := by
  rw [← unknownCount_eq_zero]
  have hheight := h {} 0 (le_refl 0)
  constructor
  · intro hbalanced
    -- any context will do: here no name has a value
    have hev : Returning (fun _ => Resolution.unknownMacro) (fun (_ : Unit) (_ : Bool)
        (b : MacroEvaluationResultBuilder) => (.ok b : Except Halt MacroEvaluationResultBuilder)) := by
      intro s v h
      cases h
    obtain ⟨rb, hrun⟩ := hbalanced Unit noFunctions _ _ true {} hev
    obtain ⟨m, hm, hlen⟩ := runInstructions_effects noFunctions true hev (emit {} calls) ⟨[], {}⟩ hheight
    rw [hrun] at hm
    cases hm
    simpa using hlen.symm
  · intro hzero β fns resolve evaluate always rb hev
    obtain ⟨⟨stack, rb'⟩, hm, hlen⟩ := runInstructions_effects fns always hev (emit {} calls) ⟨[], rb⟩ hheight
    rw [hzero] at hlen
    have hstack : stack = [] := eq_nil_of_length_eq_zero hlen
    subst hstack
    exact ⟨rb', hm⟩

theorem parsesBalanced_iff {parse : Nat → Parsed} {string : Text} {names : List Text}
    (h : ∀ fuel, enoughFuel string ≤ fuel →
      ∃ calls, parse fuel = .ok (calls, []) ∧ Raises 0 calls ∧ names = startedReplacements calls) :
    ParsesBalanced parse string ↔ Known names := by
  constructor
  · intro hparse
    obtain ⟨calls, hcalls, hbalanced⟩ := hparse (enoughFuel string) (le_refl _)
    obtain ⟨calls', hcalls', hraises, hnames⟩ := h (enoughFuel string) (le_refl _)
    rw [hcalls] at hcalls'
    cases hcalls'
    rw [hnames]
    exact (stackBalanced_iff hraises).mp hbalanced
  · intro hknown fuel hfuel
    obtain ⟨calls, hcalls, hraises, hnames⟩ := h fuel hfuel
    rw [hnames] at hknown
    exact ⟨calls, hcalls, (stackBalanced_iff hraises).mpr hknown⟩

/-- **Macro programs are balanced exactly when the replacement operators are known.** -/
theorem parse_stackBalanced_iff (string : Text) :
    (ParsesBalanced (parseAsString string) string ↔ Known (replacementOperators false string))
      ∧ (ParsesBalanced (parseAsStringList string) string ↔ Known (replacementOperators true string)) :=
  ⟨parsesBalanced_iff (parseAsString_spec string), parsesBalanced_iff (parseAsStringList_spec string)⟩

/-- `$(A:foo=b)`: the operand of the unknown operator stays on the stack. -/
theorem parse_stackBalanced_unknownOperator :
    ¬ ∀ string, ParsesBalanced (parseAsString string) string
      ∧ ParsesBalanced (parseAsStringList string) string := by
  intro h
  have hknown := (parsesBalanced_iff (parseAsString_spec (text "$(A:foo=b)"))).mp (h _).1
  revert hknown
  decide +kernel

end Builra.Macro
