import Builra.Macro.Compile

namespace Builra.Macro

open List Fallible

/-!
# `Macro.OperandCode` — what the parser makes of any name or operand

The trees of `Macro.Syntax` are well-formed texts. Here is the other direction: whatever text the parser is given for
a name or an operand, the callbacks that it makes are the code of a tree (`Operand`), as long as every replacement
operator in it is known. Deprecated brackets, references without brackets and stray `$` all have one, and so have
texts that are reported as errors.
-/

/-! ## Trees -/

mutual

/-- The code of a name or an operand. -/
inductive Operand where
  | nothing
  | literal (s : Text) (rest : Operand)
  /-- A `$` that starts no reference. -/
  | dollar (rest : Operand)
  | reference (preservesOriginal : Bool) (name : Operand) (operators : OperandOperators) (rest : Operand)

inductive OperandOperators where
  | done
  | retrieval (op : MacroEvaluationRetrievalOperator) (rest : OperandOperators)
  | replacement (op : MacroEvaluationReplacementOperator) (operand : Operand) (rest : OperandOperators)

end

mutual

def Operand.compile (asString : Bool) : Operand → List EvalInstr
  | .nothing => []
  | .literal s rest => .appendLiteral s :: rest.compile asString
  | .dollar rest => dollarCode ++ rest.compile asString
  | .reference preservesOriginal name operators rest =>
    .beginSubresult :: (.beginSubresult :: name.compile true ++ [.evalNamedMacro asString preservesOriginal]
      ++ operators.compile asString) ++ [.mergeSubresult] ++ rest.compile asString

def OperandOperators.compile (asString : Bool) : OperandOperators → List EvalInstr
  | .done => []
  | .retrieval op rest => .applyRetrievalOperator op :: rest.compile asString
  | .replacement op operand rest =>
    .beginSubresult :: operand.compile asString ++ .applyReplacementOperator op :: rest.compile asString

end

namespace Operand

def append : Operand → Operand → Operand
  | .nothing, t => t
  | .literal s rest, t => .literal s (rest.append t)
  | .dollar rest, t => .dollar (rest.append t)
  | .reference preservesOriginal name operators rest, t =>
    .reference preservesOriginal name operators (rest.append t)

/-- There is a reference in the operand. Those in the names and operators of its references do not count. -/
def refers : Operand → Bool
  | .nothing => false
  | .literal _ rest => rest.refers
  | .dollar rest => rest.refers
  | .reference .. => true

/-- Nothing is there, as for a missing name. -/
def isBlank : Operand → Bool
  | .nothing => true
  | .literal s rest => s.isEmpty && rest.isBlank
  | .dollar _ => false
  | .reference .. => false

@[simp]
theorem compile_append (asString : Bool) : (t u : Operand) →
    (t.append u).compile asString = t.compile asString ++ u.compile asString
  | .nothing, _ => rfl
  | .literal s rest, u => by simp [append, compile, compile_append asString rest u]
  | .dollar rest, u => by simp [append, compile, compile_append asString rest u]
  | .reference preservesOriginal name operators rest, u => by
    simp [append, compile, compile_append asString rest u]

@[simp]
theorem refers_append : (t u : Operand) → (t.append u).refers = (t.refers || u.refers)
  | .nothing, _ => rfl
  | .literal _ rest, u => refers_append rest u
  | .dollar rest, u => refers_append rest u
  | .reference .., _ => rfl

@[simp]
theorem isBlank_append : (t u : Operand) → (t.append u).isBlank = (t.isBlank && u.isBlank)
  | .nothing, _ => rfl
  | .literal s rest, u => by simp [append, isBlank, isBlank_append rest u, Bool.and_assoc]
  | .dollar .., _ => rfl
  | .reference .., _ => rfl

end Operand

mutual

/-- No name of a reference is missing, in the operand or in the names and operators of its references. -/
def Operand.Named : Operand → Prop
  | .nothing => True
  | .literal _ rest => rest.Named
  | .dollar rest => rest.Named
  | .reference _ name operators rest => name.isBlank = false ∧ name.Named ∧ operators.Named ∧ rest.Named

def OperandOperators.Named : OperandOperators → Prop
  | .done => True
  | .retrieval _ rest => rest.Named
  | .replacement _ operand rest => operand.Named ∧ rest.Named

end

theorem Operand.named_append : (t u : Operand) → t.Named → u.Named → (t.append u).Named
  | .nothing, _, _, hu => hu
  | .literal _ rest, u, ht, hu => named_append rest u ht hu
  | .dollar rest, u, ht, hu => named_append rest u ht hu
  | .reference _ _ _ rest, u, ⟨hblank, hname, hoperators, hrest⟩, hu =>
    ⟨hblank, hname, hoperators, named_append rest u hrest hu⟩

/-! ## Callbacks of a tree -/

/-- No replacement operator is unknown. -/
def KnownOperators (calls : List Callback) : Prop :=
  ∀ operatorName position, .foundEndOfReplacementOperator operatorName position ∈ calls →
    MacroEvaluationReplacementOperator.ofName operatorName ≠ none

theorem KnownOperators.of_subset {calls more : List Callback} (h : KnownOperators more) (hsub : calls ⊆ more) :
    KnownOperators calls :=
  fun operatorName position hmem => h operatorName position (hsub hmem)

section Code

variable (string : Text)

/-- No error is diagnosed. -/
def ErrorFree (calls : List Callback) : Prop :=
  ∀ c ∈ calls, ∀ d ∈ diagnosed string c, d.level ≠ .error

/-- The callbacks are the code of a tree. -/
structure IsCode (always : Bool) (calls : List Callback) (t : Operand) : Prop where
  compiles : CompilesTo always calls t.compile
  refers : t.refers = true ↔ .foundStartOfMacroName ∈ calls
  named : ErrorFree string calls → t.Named

structure IsOperatorCode (always : Bool) (calls : List Callback) (operators : OperandOperators) : Prop where
  compiles : CompilesTo always calls operators.compile
  named : ErrorFree string calls → operators.Named

variable {string} {always : Bool} {calls more : List Callback}

theorem ErrorFree.of_subset (h : ErrorFree string more) (hsub : calls ⊆ more) : ErrorFree string calls :=
  fun c hc => h c (hsub hc)

theorem isCode_nil : IsCode string always [] .nothing where
  compiles := compilesTo_nil always
  refers := by simp [Operand.refers]
  named _ := trivial

theorem IsCode.append {t u : Operand} (h : IsCode string always calls t) (h' : IsCode string always more u) :
    IsCode string always (calls ++ more) (t.append u) where
  compiles := (h.compiles.append h'.compiles).congr fun a => (Operand.compile_append a t u).symm
  refers := by rw [Operand.refers_append, Bool.or_eq_true, h.refers, h'.refers, mem_append]
  named hfree := Operand.named_append t u (h.named (hfree.of_subset (subset_append_left ..)))
    (h'.named (hfree.of_subset (subset_append_right ..)))

theorem isCode_literal (s : Text) : IsCode string always [.foundLiteralStringFragment s] (.literal s .nothing) where
  compiles := fun _ _ => ⟨rfl, rfl⟩
  refers := by simp [Operand.refers]
  named _ := trivial

/-- The literal text that a scan found, if any. -/
def Operand.ofLiteral : Option Text → Operand
  | some s => .literal s .nothing
  | none => .nothing

variable (string always) in
theorem isCode_literalFragment (literal : Option Text) :
    IsCode string always (literalFragment literal) (.ofLiteral literal) := by
  cases literal with
  | none => exact isCode_nil
  | some s => exact isCode_literal s

theorem isOperatorCode_done : IsOperatorCode string always [] .done where
  compiles := compilesTo_nil always
  named _ := trivial

/-- A diagnostic emits nothing. -/
theorem compilesTo_diagnostic (d : MacroExpressionDiagnostic) :
    CompilesTo always [.handleDiagnostic d] fun _ => [] :=
  fun _ _ => ⟨rfl, rfl⟩

/-- A stray `$`. -/
theorem isCode_dollar : IsCode string always
    (.foundStartOfSubstitutionSubexpression always :: [.foundLiteralStringFragment [ascii '$']]
      ++ [.foundEndOfSubstitutionSubexpression always]) (.dollar .nothing) where
  compiles := (compilesTo_dollar always).congr fun _ => rfl
  refers := by simp [Operand.refers]
  named _ := trivial

/-- A reference, from its name and its operators. The diagnostics do not matter. -/
theorem compilesTo_named {before nameCalls after operatorCalls : List Callback} {nameCode : List EvalInstr}
    {operatorsCode : Bool → List EvalInstr} (hbefore : CompilesTo always before fun _ => [])
    (hname : CompilesTo true nameCalls fun _ => nameCode) (hafter : CompilesTo true after fun _ => [])
    (hoperators : CompilesTo always operatorCalls operatorsCode) (wasBracketed : Bool) :
    CompilesTo always (.foundStartOfSubstitutionSubexpression always
        :: (before ++ .foundStartOfMacroName :: nameCalls ++ after ++ .foundEndOfMacroName wasBracketed :: operatorCalls)
        ++ [.foundEndOfSubstitutionSubexpression always])
      fun a => .beginSubresult :: (.beginSubresult :: nameCode ++ [.evalNamedMacro a (!wasBracketed)]
        ++ operatorsCode a) ++ [.mergeSubresult] := by
  have hinside := (hbefore.within.append (emitsWithin_name (hname.append hafter) wasBracketed)).append
    hoperators.within
  refine (compilesTo_substitution hinside).congr' ?_ ?_
  · simp
  · intro a
    simp

/-! ## Parsing -/

/-- The callbacks for a replacement operator, around those for its operand. -/
def replacementCalls (string : Text) (operName : Text) (operandCalls : List Callback) (rest : Text) : List Callback :=
  .foundStartOfReplacementOperator operName :: operandCalls
    ++ .foundEndOfReplacementOperator operName (index string rest)
    :: (if rest = [] then [errorAt string rest .unterminatedMacroSubexpression] else [])

variable {afterC operName rest : Text} {closeDelim c : UInt8}

variable {parseOperand : Text → Parsed} {operandCalls : List Callback}

theorem parseOperator_replacement (hdelim : closeDelim ≠ ascii '=')
    (h : parseOperator string parseOperand closeDelim (some operName) (ascii '=' :: afterC) = .ok (calls, rest)) :
    ∃ operandCalls, parseOperand afterC = .ok (operandCalls, rest)
      ∧ calls = replacementCalls string operName operandCalls rest := by
  have hstop : ¬(ascii '=' = ascii ':' ∨ ascii '=' = closeDelim) := by
    rintro (h | h)
    · exact absurd h (by decide)
    · exact hdelim h.symm
  simp only [parseOperator, if_neg hstop, if_true] at h
  obtain ⟨⟨operandCalls, afterOperand⟩, hparse, h⟩ := bind_eq_ok.mp h
  obtain ⟨-, -, h⟩ := bind_eq_ok.mp h
  cases h
  exact ⟨operandCalls, hparse, rfl⟩

theorem operandCalls_subset (string operName : Text) (operandCalls : List Callback) (rest : Text) :
    operandCalls ⊆ replacementCalls string operName operandCalls rest :=
  fun c hc => by simp [replacementCalls, hc]

/-- The operator of the callbacks is known. -/
theorem KnownOperators.replacement (h : KnownOperators (replacementCalls string operName operandCalls rest)) :
    (∃ op, MacroEvaluationReplacementOperator.ofName operName = some op) ∧ KnownOperators operandCalls := by
  refine ⟨?_, h.of_subset (operandCalls_subset string operName operandCalls rest)⟩
  exact Option.ne_none_iff_exists'.mp (h operName (index string rest) (by simp [replacementCalls]))

theorem compilesTo_replacementCalls {op : MacroEvaluationReplacementOperator}
    (hop : MacroEvaluationReplacementOperator.ofName operName = some op) {code : Bool → List EvalInstr}
    (h : CompilesTo always operandCalls code) (rest : Text) :
    CompilesTo always (replacementCalls string operName operandCalls rest)
      fun a => .beginSubresult :: code a ++ [.applyReplacementOperator op] := by
  have hend : CompilesTo always (if rest = [] then [errorAt string rest .unterminatedMacroSubexpression] else [])
      fun _ => [] := by
    split
    · exact compilesTo_diagnostic _
    · exact compilesTo_nil always
  refine ((compilesTo_replacement hop (index string rest) h).append hend).congr' ?_ ?_
  · simp [replacementCalls]
  · intro a
    simp

/-- The parse of an operator, from what follows its name on, and of the operators after it. -/
theorem operator_isCode {name : Option Text} {start : Text} (hdelim : closeDelim ≠ ascii '=')
    (h : parseOperator string parseOperand closeDelim name start = .ok (calls, rest)) (hknown : KnownOperators calls)
    (hoperand : ∀ {start operandCalls rest}, parseOperand start = .ok (operandCalls, rest) →
      KnownOperators operandCalls → ∃ t, IsCode string always operandCalls t) {operators : OperandOperators}
    (hmore : IsOperatorCode string always more operators) :
    ∃ all, IsOperatorCode string always (calls ++ more) all := by
  have hnamed : ErrorFree string (calls ++ more) → operators.Named :=
    fun hfree => hmore.named (hfree.of_subset (subset_append_right ..))
  have hsilent : CompilesTo always calls (fun _ => []) → ∃ all, IsOperatorCode string always (calls ++ more) all :=
    fun hnothing => ⟨operators, hnothing.append hmore.compiles, hnamed⟩
  cases start with
  | nil =>
    cases h
    exact hsilent (compilesTo_diagnostic _)
  | cons c afterC =>
    by_cases hstop : c = ascii ':' ∨ c = closeDelim
    · simp only [parseOperator, if_pos hstop] at h
      cases name with
      | none =>
        cases h
        exact hsilent (compilesTo_diagnostic _)
      | some operName =>
        cases h
        cases hop : MacroEvaluationRetrievalOperator.ofName operName with
        | some op =>
          exact ⟨.retrieval op operators, (compilesTo_retrieval hop _).append hmore.compiles, hnamed⟩
        | none =>
          -- an unknown operator is diagnosed, and nothing is emitted for it
          exact hsilent fun _ _ => ⟨by simp [emit, emitted, hop], rfl⟩
    · by_cases hequals : c = ascii '='
      · subst hequals
        cases name with
        | none =>
          simp only [parseOperator, if_neg hstop, if_true] at h
          cases h
          exact hsilent (compilesTo_diagnostic _)
        | some operName =>
          obtain ⟨operandCalls, hparse, rfl⟩ := parseOperator_replacement hdelim h
          obtain ⟨⟨op, hop⟩, hoperandKnown⟩ := hknown.replacement
          obtain ⟨t, ht⟩ := hoperand hparse hoperandKnown
          refine ⟨.replacement op t operators, ?_, fun hfree => ⟨ht.named ?_, hnamed hfree⟩⟩
          · refine ((compilesTo_replacementCalls hop ht.compiles rest).append hmore.compiles).congr ?_
            intro a
            simp [OperandOperators.compile]
          · exact hfree.of_subset (List.Subset.trans (operandCalls_subset string operName operandCalls rest)
              (subset_append_left ..))
      · simp only [parseOperator, if_neg hstop, if_neg hequals] at h
        cases h
        exact hsilent (compilesTo_diagnostic _)

variable (string)

def SubstitutionCode (fuel : Nat) : Prop :=
  ∀ always orig calls rest, parseSubstitutionSubexpression string fuel always orig = .ok (calls, rest) →
    KnownOperators calls → ∃ t : Operand, IsCode string always calls t ∧ t.isBlank = false

def FragmentCode (fuel : Nat) : Prop :=
  ∀ always delimiter start calls rest, delimiter ≠ ascii '=' →
    parseSubstitutionSubexpressionFragment string fuel always delimiter start = .ok (calls, rest) →
    KnownOperators calls → ∃ t : Operand, IsCode string always calls t ∧ (t.isBlank = true → rest = start)

def OperatorsCode (fuel : Nat) : Prop :=
  ∀ always closeDelim start calls rest, closeDelim ≠ ascii '=' →
    parseOperators string fuel always closeDelim start = .ok (calls, rest) → KnownOperators calls →
    ∃ operators, IsOperatorCode string always calls operators

variable {string} {fuel : Nat}

theorem fragment_code (hsubst : SubstitutionCode string fuel) (hfrag : FragmentCode string fuel) :
    FragmentCode string (fuel + 1) := by
  intro always delimiter start calls rest hdelim h hknown
  unfold parseSubstitutionSubexpressionFragment at h
  by_cases hstart : start = []
  · rw [if_pos hstart] at h
    cases h
    exact ⟨.nothing, isCode_nil, fun _ => rfl⟩
  · rw [if_neg hstart] at h
    obtain ⟨lit, afterLiteral, hscan, rfl, -, -⟩ :=
      scanUntil_spec (fun c => decide (c = ascii '$' ∨ c = ascii ':' ∨ c = delimiter)) start
    have hcode := isCode_literalFragment string always (if lit.isEmpty then none else some lit)
    simp only [hscan] at h
    obtain ⟨-, -, h⟩ := bind_eq_ok.mp h
    by_cases hdollar : afterLiteral.head? ≠ some (ascii '$')
    · rw [if_pos hdollar] at h
      obtain ⟨-, -, h⟩ := bind_eq_ok.mp h
      cases h
      refine ⟨_, hcode, ?_⟩
      intro hblank
      cases lit with
      | nil => rfl
      | cons c lit => simp [Operand.ofLiteral, Operand.isBlank] at hblank
    · rw [if_neg hdollar] at h
      obtain ⟨⟨substCalls, afterSubst⟩, hparse, h⟩ := bind_eq_ok.mp h
      obtain ⟨⟨more, afterMore⟩, hmore, h⟩ := bind_eq_ok.mp h
      cases h
      obtain ⟨t, ht, hblank⟩ := hsubst always afterLiteral substCalls afterSubst hparse (hknown.of_subset fun c hc => by simp [hc])
      obtain ⟨u, hu, -⟩ := hfrag always delimiter afterSubst more afterMore hdelim hmore (hknown.of_subset fun c hc => by simp [hc])
      refine ⟨_, (hcode.append ht).append hu, ?_⟩
      intro hall
      simp [hblank] at hall

theorem operators_code (hfrag : FragmentCode string fuel) (hopers : OperatorsCode string fuel) :
    OperatorsCode string (fuel + 1) := by
  intro always closeDelim start calls rest hdelim h hknown
  unfold parseOperators at h
  by_cases hcolon : start.head? ≠ some (ascii ':')
  · rw [if_pos hcolon] at h
    cases h
    exact ⟨.done, isOperatorCode_done⟩
  · rw [if_neg hcolon] at h
    obtain ⟨⟨operatorCalls, afterOperator⟩, hparse, h⟩ := bind_eq_ok.mp h
    obtain ⟨⟨more, afterMore⟩, hmore, h⟩ := bind_eq_ok.mp h
    cases h
    obtain ⟨operators, hoperators⟩ := hopers always closeDelim afterOperator more rest hdelim hmore
      (hknown.of_subset (subset_append_right ..))
    refine operator_isCode hdelim hparse (hknown.of_subset (subset_append_left ..)) ?_ hoperators
    intro start operandCalls rest hoperand hoperandKnown
    obtain ⟨t, ht, -⟩ := hfrag always closeDelim start operandCalls rest hdelim hoperand hoperandKnown
    exact ⟨t, ht⟩

/-- A reference without brackets: its name is read up to the first character that cannot be in one, and what follows
in brackets may belong to it. -/
theorem parseBare_calls {parseNested : Text → Parsed} (h : parseBare parseNested c afterC = .ok (calls, rest)) :
    ∃ s inner, s ≠ []
      ∧ calls = .foundStartOfMacroName :: .foundLiteralStringFragment s :: inner ++ [.foundEndOfMacroName false]
      ∧ (inner = [] ∧ rest = afterC.dropWhile isValidMacroNameNthChar
        ∨ parseNested (afterC.dropWhile isValidMacroNameNthChar) = .ok (inner, rest)) := by
  unfold parseBare at h
  obtain ⟨_, hassert, h⟩ := bind_eq_ok.mp h
  have hshorter := of_assert hassert
  have hne : slice (c :: afterC) (afterC.dropWhile isValidMacroNameNthChar) ≠ [] := by
    unfold slice
    rw [ne_eq, take_eq_nil_iff]
    simp only [reduceCtorEq, or_false]
    omega
  split at h
  · obtain ⟨⟨inner, afterInner⟩, hinner, h⟩ := bind_eq_ok.mp h
    cases h
    exact ⟨_, inner, hne, rfl, .inr hinner⟩
  · cases h
    exact ⟨_, [], hne, rfl, .inl ⟨rfl, rfl⟩⟩

theorem bare_code (hsubst : SubstitutionCode string fuel)
    (h : parseBare (parseSubstitutionSubexpression string fuel true) c afterC = .ok (calls, rest))
    (hknown : KnownOperators calls) :
    ∃ t : Operand, IsCode string always (.foundStartOfSubstitutionSubexpression always :: calls
      ++ [.foundEndOfSubstitutionSubexpression always]) t ∧ t.isBlank = false := by
  obtain ⟨s, inner, hne, rfl, hinner⟩ := parseBare_calls h
  obtain ⟨t, ht⟩ : ∃ t, IsCode string true inner t := by
    rcases hinner with ⟨rfl, -⟩ | hnested
    · exact ⟨.nothing, isCode_nil⟩
    · obtain ⟨t, ht, -⟩ := hsubst true _ inner rest hnested
        (hknown.of_subset fun c hc => by simp [hc])
      exact ⟨t, ht⟩
  have hliteral : IsCode string true [.foundLiteralStringFragment s] (.literal s .nothing) := isCode_literal s
  have hname := hliteral.append ht
  refine ⟨.reference true (.append (.literal s .nothing) t) .done .nothing, ⟨?_, ?_, ?_⟩, rfl⟩
  · refine (compilesTo_named (compilesTo_nil always) hname.compiles.asString (compilesTo_nil true)
      (compilesTo_nil always) false).congr' ?_ ?_
    · simp
    · intro a
      simp [Operand.compile, OperandOperators.compile]
  · simp [Operand.refers]
  · intro hfree
    refine ⟨by simp [Operand.append, Operand.isBlank, hne], hname.named (hfree.of_subset ?_), trivial, trivial⟩
    intro e he
    rcases mem_cons.mp he with rfl | he
    · simp
    · have hmem : e ∈ inner := he
      simp [hmem]

/-- A reference in brackets: its name and its operators, with diagnostics ahead of the name and behind it. -/
theorem parseBracketed_calls {parseName parseOperators : Text → Parsed} {orig : Text}
    (h : parseBracketed string parseName parseOperators orig c closeDelim afterC = .ok (calls, rest)) :
    ∃ before nameCalls missing operatorCalls afterName afterOperators,
      calls = before ++ .foundStartOfMacroName :: nameCalls ++ missing ++ .foundEndOfMacroName true :: operatorCalls
      ∧ parseName afterC = .ok (nameCalls, afterName) ∧ parseOperators afterName = .ok (operatorCalls, afterOperators)
      ∧ rest = (if afterOperators.head? = some closeDelim then afterOperators.tail else afterOperators)
      ∧ (∀ always, CompilesTo always before fun _ => []) ∧ (∀ always, CompilesTo always missing fun _ => [])
      ∧ (afterName = afterC → ¬ErrorFree string missing) := by
  unfold parseBracketed at h
  obtain ⟨⟨nameCalls, afterName⟩, hname, h⟩ := bind_eq_ok.mp h
  obtain ⟨-, -, h⟩ := bind_eq_ok.mp h
  obtain ⟨⟨operatorCalls, afterOperators⟩, hoperators, h⟩ := bind_eq_ok.mp h
  obtain ⟨-, -, h⟩ := bind_eq_ok.mp h
  cases h
  refine ⟨_, nameCalls, _, operatorCalls, afterName, afterOperators, rfl, hname, hoperators, rfl, ?_, ?_, ?_⟩
  · intro always
    split
    · exact compilesTo_diagnostic _
    · exact compilesTo_nil always
  · intro always
    split
    · exact compilesTo_diagnostic _
    · split
      · exact compilesTo_diagnostic _
      · exact compilesTo_nil always
  · intro hsame hfree
    rw [if_pos hsame] at hfree
    split at hfree
    · exact hfree _ (mem_singleton_self _) _ (mem_singleton_self _) rfl
    · exact hfree _ (mem_singleton_self _) _ (mem_singleton_self _) rfl

theorem bracketed_code (hfrag : FragmentCode string fuel) (hopers : OperatorsCode string fuel)
    (hdelim : closeDelim ≠ ascii '=') {orig : Text}
    (h : parseBracketed string (parseSubstitutionSubexpressionFragment string fuel true closeDelim)
      (parseOperators string fuel always closeDelim) orig c closeDelim afterC = .ok (calls, rest))
    (hknown : KnownOperators calls) :
    ∃ t : Operand, IsCode string always (.foundStartOfSubstitutionSubexpression always :: calls
      ++ [.foundEndOfSubstitutionSubexpression always]) t ∧ t.isBlank = false := by
  obtain ⟨before, nameCalls, missing, operatorCalls, afterName, afterOperators, rfl, hname, hoperators, -, hbefore,
    hmissing, herror⟩ := parseBracketed_calls h
  obtain ⟨name, hnameCode, hblank⟩ := hfrag true closeDelim afterC nameCalls afterName hdelim hname
    (hknown.of_subset fun e he => by simp [he])
  obtain ⟨operators, hoperatorsCode⟩ := hopers always closeDelim afterName operatorCalls afterOperators hdelim
    hoperators (hknown.of_subset fun e he => by simp [he])
  refine ⟨.reference false name operators .nothing, ⟨?_, ?_, ?_⟩, rfl⟩
  · refine (compilesTo_named (hbefore always) hnameCode.compiles.asString (hmissing true) hoperatorsCode.compiles
      true).congr ?_
    intro a
    simp [Operand.compile]
  · simp [Operand.refers]
  · intro hfree
    refine ⟨?_, hnameCode.named (hfree.of_subset fun e he => by simp [he]),
      hoperatorsCode.named (hfree.of_subset fun e he => by simp [he]), trivial⟩
    -- where nothing was read for the name, it is missing
    by_contra hnot
    exact herror (hblank (by simpa using hnot)) (hfree.of_subset fun e he => by simp [he])

theorem closing_ne_equals {d : UInt8} (h : getClosingDelimiter c = some d) : d ≠ ascii '=' := by
  unfold getClosingDelimiter at h
  split at h
  · cases h
    decide
  · split at h
    · cases h
      decide
    · split at h
      · cases h
        decide
      · cases h

theorem substitution_code (hsubst : SubstitutionCode string fuel) (hfrag : FragmentCode string fuel)
    (hopers : OperatorsCode string fuel) : SubstitutionCode string (fuel + 1) := by
  intro always orig calls rest h hknown
  unfold parseSubstitutionSubexpression at h
  obtain ⟨_, hdollar, h⟩ := bind_eq_ok.mp h
  obtain ⟨tail, rfl⟩ := List.head?_eq_some_iff.mp (of_precondition hdollar)
  cases tail with
  | nil =>
    cases h
    refine ⟨.dollar .nothing, ⟨?_, ?_, fun _ => trivial⟩, rfl⟩
    · exact compilesTo_substitution ((compilesTo_diagnostic _).within.append
        (compilesTo_literal always [ascii '$']).within)
    · simp [Operand.refers, diagnostic]
  | cons c afterC =>
    have hslice : slice (ascii '$' :: c :: afterC) (c :: afterC) = [ascii '$'] := slice_of_append [ascii '$'] (c :: afterC)
    simp only [tail_cons, hslice] at h
    cases hclose : getClosingDelimiter c with
    | some closeDelim =>
      simp only [hclose] at h
      obtain ⟨⟨inner, afterInner⟩, hinner, h⟩ := bind_eq_ok.mp h
      cases h
      exact bracketed_code hfrag hopers (closing_ne_equals hclose) hinner (hknown.of_subset fun c hc => by simp [hc])
    | none =>
      simp only [hclose] at h
      split at h
      · obtain ⟨⟨inner, afterInner⟩, hinner, h⟩ := bind_eq_ok.mp h
        cases h
        exact bare_code hsubst hinner (hknown.of_subset fun c hc => by simp [hc])
      · cases h
        exact ⟨.dollar .nothing, isCode_dollar, rfl⟩

variable (string) in
theorem parse_codes (fuel : Nat) :
    SubstitutionCode string fuel ∧ FragmentCode string fuel ∧ OperatorsCode string fuel := by
  induction fuel with
  | zero =>
    refine ⟨?_, ?_, ?_⟩
    · intro always orig calls rest h
      cases h
    · intro always delimiter start calls rest _ h
      cases h
    · intro always closeDelim start calls rest _ h
      cases h
  | succ fuel ih =>
    obtain ⟨hsubst, hfrag, hopers⟩ := ih
    exact ⟨substitution_code hsubst hfrag hopers, fragment_code hsubst hfrag, operators_code hfrag hopers⟩

end Code

/-! ## References in a text -/

/-- A reference starts in the text: a `$` with a bracket or with the first character of a name behind it. -/
def mentionsMacro : Text → Bool
  | [] => false
  | [_] => false
  | a :: c :: rest =>
    if a = ascii '$' then
      if c = ascii '$' then mentionsMacro rest
      else (getClosingDelimiter c).isSome || isValidMacroName1stChar c || mentionsMacro (c :: rest)
    else mentionsMacro (c :: rest)

theorem mentionsMacro_append {lit : Text} (h : ascii '$' ∉ lit) (s : Text) : mentionsMacro (lit ++ s) = mentionsMacro s := by
  induction lit with
  | nil => rfl
  | cons c lit ih =>
    obtain ⟨hc, hlit⟩ := not_or.mp (mt mem_cons.mpr h)
    have hne : c ≠ ascii '$' := Ne.symm hc
    rw [cons_append, ← ih hlit]
    cases hrest : lit ++ s with
    | nil => rfl
    | cons e rest => rw [mentionsMacro, if_neg hne]

section Mentions

variable {string : Text} {calls : List Callback} {fuel : Nat}

/-- What a parse leaves is the end of the text. -/
structure LeavesSuffix (string : Text) (fuel : Nat) : Prop where
  substitution : ∀ {always orig calls rest}, parseSubstitutionSubexpression string fuel always orig = .ok (calls, rest) →
    rest <:+ orig.tail
  fragment : ∀ {always delimiter start calls rest},
    parseSubstitutionSubexpressionFragment string fuel always delimiter start = .ok (calls, rest) → rest <:+ start
  operators : ∀ {always closeDelim start calls rest},
    parseOperators string fuel always closeDelim start = .ok (calls, rest) → rest <:+ start

variable {rest start : Text}

theorem scanUntil_suffix {block : UInt8 → Bool} {literal : Option Text} (h : scanUntil block start = (literal, rest)) :
    rest <:+ start := by
  obtain ⟨lit, r, hscan, rfl, -, -⟩ := scanUntil_spec block start
  rw [h] at hscan
  cases hscan
  exact suffix_append lit rest

theorem operator_suffix {parseOperand : Text → Parsed} {closeDelim : UInt8} {name : Option Text}
    (h : parseOperator string parseOperand closeDelim name start = .ok (calls, rest))
    (hoperand : ∀ {start calls rest}, parseOperand start = .ok (calls, rest) → rest <:+ start) : rest <:+ start := by
  cases start with
  | nil =>
    cases h
    exact suffix_rfl
  | cons c afterC =>
    by_cases hstop : c = ascii ':' ∨ c = closeDelim
    · simp only [parseOperator, if_pos hstop] at h
      cases name <;> cases h <;> exact suffix_rfl
    · by_cases hequals : c = ascii '='
      · simp only [parseOperator, if_neg hstop, if_pos hequals] at h
        cases name with
        | none =>
          cases h
          exact (scanUntil_suffix rfl).trans (suffix_cons c afterC)
        | some operName =>
          obtain ⟨⟨operandCalls, afterOperand⟩, hparse, h⟩ := bind_eq_ok.mp h
          obtain ⟨-, -, h⟩ := bind_eq_ok.mp h
          cases h
          exact (hoperand hparse).trans (suffix_cons c afterC)
      · simp only [parseOperator, if_neg hstop, if_neg hequals] at h
        cases h
        exact dropWhile_suffix _

theorem leavesSuffix_succ (ih : LeavesSuffix string fuel) : LeavesSuffix string (fuel + 1) where
  substitution := by
    intro always orig calls rest h
    unfold parseSubstitutionSubexpression at h
    obtain ⟨-, -, h⟩ := bind_eq_ok.mp h
    cases htail : orig.tail with
    | nil =>
      simp only [htail] at h
      cases h
      exact suffix_rfl
    | cons c afterC =>
      simp only [htail] at h
      have hafter := suffix_cons c afterC
      split at h
      · obtain ⟨⟨inner, afterInner⟩, hinner, h⟩ := bind_eq_ok.mp h
        cases h
        obtain ⟨_, _, _, _, afterName, afterOperators, _, hname, hoperators, rfl, -⟩ := parseBracketed_calls hinner
        have hleft := ((ih.operators hoperators).trans (ih.fragment hname)).trans hafter
        split
        · exact (tail_suffix afterOperators).trans hleft
        · exact hleft
      · split at h
        · obtain ⟨⟨inner, afterInner⟩, hinner, h⟩ := bind_eq_ok.mp h
          cases h
          obtain ⟨_, _, _, _, ⟨-, rfl⟩ | hnested⟩ := parseBare_calls hinner
          · exact (dropWhile_suffix _).trans hafter
          · exact ((ih.substitution hnested).trans ((tail_suffix _).trans (dropWhile_suffix _))).trans hafter
        · cases h
          split
          · exact hafter
          · exact suffix_rfl
  fragment := by
    intro always delimiter start calls rest h
    unfold parseSubstitutionSubexpressionFragment at h
    split at h
    · cases h
      exact suffix_rfl
    · obtain ⟨lit, afterLiteral, hscan, rfl, -, -⟩ :=
        scanUntil_spec (fun c => decide (c = ascii '$' ∨ c = ascii ':' ∨ c = delimiter)) start
      simp only [hscan] at h
      obtain ⟨-, -, h⟩ := bind_eq_ok.mp h
      have hliteral := suffix_append lit afterLiteral
      split at h
      · obtain ⟨-, -, h⟩ := bind_eq_ok.mp h
        cases h
        exact hliteral
      · obtain ⟨⟨substCalls, afterSubst⟩, hparse, h⟩ := bind_eq_ok.mp h
        obtain ⟨⟨more, afterMore⟩, hmore, h⟩ := bind_eq_ok.mp h
        cases h
        exact ((ih.fragment hmore).trans ((ih.substitution hparse).trans (tail_suffix _))).trans hliteral
  operators := by
    intro always closeDelim start calls rest h
    unfold parseOperators at h
    split at h
    · cases h
      exact suffix_rfl
    · obtain ⟨⟨operatorCalls, afterOperator⟩, hparse, h⟩ := bind_eq_ok.mp h
      obtain ⟨⟨more, afterMore⟩, hmore, h⟩ := bind_eq_ok.mp h
      cases h
      have hname := (scanUntil_suffix (rfl : scanUntil (fun c => !isValidOperatorNameChar c) start.tail = _)).trans
        (tail_suffix start)
      exact ((ih.operators hmore).trans (operator_suffix hparse ih.fragment)).trans hname

theorem leavesSuffix (string : Text) (fuel : Nat) : LeavesSuffix string fuel := by
  induction fuel with
  | zero =>
    refine ⟨?_, ?_, ?_⟩
    · intro always orig calls rest h
      cases h
    · intro always delimiter start calls rest h
      cases h
    · intro always closeDelim start calls rest h
      cases h
  | succ fuel ih => exact leavesSuffix_succ ih

/-- A substitution subexpression is a reference if one starts there, whatever part of the text behind it is read. -/
theorem substitution_mentions {always : Bool} {orig : Text}
    (h : parseSubstitutionSubexpression string fuel always orig = .ok (calls, rest)) :
    ∃ part, orig = part ++ rest ∧ ∀ t, t <+: rest →
      (mentionsMacro (part ++ t) = true ↔ .foundStartOfMacroName ∈ calls ∨ mentionsMacro t = true) := by
  cases fuel with
  | zero => cases h
  | succ fuel =>
    unfold parseSubstitutionSubexpression at h
    obtain ⟨_, hdollar, h⟩ := bind_eq_ok.mp h
    obtain ⟨tail, rfl⟩ := List.head?_eq_some_iff.mp (of_precondition hdollar)
    cases tail with
    | nil =>
      cases h
      refine ⟨[ascii '$'], rfl, ?_⟩
      intro t ht
      obtain rfl := prefix_nil.mp ht
      simp [diagnostic, mentionsMacro]
    | cons c afterC =>
      have hslice : slice (ascii '$' :: c :: afterC) (c :: afterC) = [ascii '$'] :=
        slice_of_append [ascii '$'] (c :: afterC)
      simp only [tail_cons, hslice] at h
      -- a reference: it starts at these two characters
      have hrefers : ∀ {rest'}, rest' <:+ afterC → c ≠ ascii '$' →
          (getClosingDelimiter c).isSome = true ∨ isValidMacroName1stChar c = true →
          ∃ part, ascii '$' :: c :: afterC = part ++ rest' ∧ ∀ t, mentionsMacro (part ++ t) = true := by
        rintro rest' ⟨part, rfl⟩ hc hstarts
        refine ⟨ascii '$' :: c :: part, rfl, ?_⟩
        intro t
        rw [cons_append, cons_append, mentionsMacro, if_pos rfl, if_neg hc]
        rcases hstarts with hstarts | hstarts <;> simp [hstarts]
      have hleaves := leavesSuffix string fuel
      cases hclose : getClosingDelimiter c with
      | some closeDelim =>
        simp only [hclose] at h
        obtain ⟨⟨inner, afterInner⟩, hinner, h⟩ := bind_eq_ok.mp h
        cases h
        obtain ⟨_, _, _, _, afterName, afterOperators, rfl, hname, hoperators, hrest, -⟩ := parseBracketed_calls hinner
        have hleft := (hleaves.operators hoperators).trans (hleaves.fragment hname)
        have hsuffix : afterInner <:+ afterC := by
          rw [hrest]
          split
          · exact (tail_suffix afterOperators).trans hleft
          · exact hleft
        have hc : c ≠ ascii '$' := by
          rintro rfl
          cases hclose
        obtain ⟨part, heq, hpart⟩ := hrefers hsuffix hc (.inl (by rw [hclose]; rfl))
        exact ⟨part, heq, fun t _ => by simp [hpart t]⟩
      | none =>
        simp only [hclose] at h
        by_cases hname : isValidMacroName1stChar c = true
        · rw [if_pos hname] at h
          obtain ⟨⟨inner, afterInner⟩, hinner, h⟩ := bind_eq_ok.mp h
          cases h
          obtain ⟨_, _, _, rfl, hnested⟩ := parseBare_calls hinner
          have hsuffix : afterInner <:+ afterC := by
            rcases hnested with ⟨-, rfl⟩ | hnested
            · exact dropWhile_suffix _
            · exact (hleaves.substitution hnested).trans ((tail_suffix _).trans (dropWhile_suffix _))
          have hc : c ≠ ascii '$' := by
            rintro rfl
            exact absurd hname (by decide)
          obtain ⟨part, heq, hpart⟩ := hrefers hsuffix hc (.inr hname)
          exact ⟨part, heq, fun t _ => by simp [hpart t]⟩
        · rw [if_neg hname] at h
          by_cases hc : c = ascii '$'
          · subst hc
            cases h
            refine ⟨[ascii '$', ascii '$'], rfl, fun t _ => ?_⟩
            simp [mentionsMacro]
          · rw [if_neg hc] at h
            cases h
            refine ⟨[ascii '$'], rfl, fun t ht => ?_⟩
            cases t with
            | nil => simp [mentionsMacro]
            | cons e t =>
              obtain rfl : e = c := (cons_prefix_cons.mp ht).1
              simp [mentionsMacro, hc, hclose, hname]

/-- A name or an operand holds a reference if one starts in the text that is read for it. -/
theorem fragment_mentions {always : Bool} {delimiter : UInt8}
    (h : parseSubstitutionSubexpressionFragment string fuel always delimiter start = .ok (calls, rest)) :
    ∃ covered, start = covered ++ rest ∧ (.foundStartOfMacroName ∈ calls ↔ mentionsMacro covered = true) := by
  induction fuel generalizing start calls with
  | zero => cases h
  | succ fuel ih =>
    unfold parseSubstitutionSubexpressionFragment at h
    by_cases hstart : start = []
    · rw [if_pos hstart] at h
      cases h
      exact ⟨[], rfl, by simp [mentionsMacro]⟩
    · rw [if_neg hstart] at h
      obtain ⟨lit, afterLiteral, hscan, rfl, hlit, -⟩ :=
        scanUntil_spec (fun c => decide (c = ascii '$' ∨ c = ascii ':' ∨ c = delimiter)) start
      have hdollar : ascii '$' ∉ lit := fun hmem => absurd (hlit _ hmem) (by simp)
      have hfragment : ∀ literal, .foundStartOfMacroName ∉ literalFragment literal := by
        rintro (_ | s) <;> simp [literalFragment]
      simp only [hscan] at h
      obtain ⟨-, -, h⟩ := bind_eq_ok.mp h
      by_cases hhead : afterLiteral.head? ≠ some (ascii '$')
      · rw [if_pos hhead] at h
        obtain ⟨-, -, h⟩ := bind_eq_ok.mp h
        cases h
        refine ⟨lit, rfl, iff_of_false (hfragment _) ?_⟩
        have hnone := mentionsMacro_append hdollar []
        rw [append_nil] at hnone
        rw [hnone]
        exact Bool.false_ne_true
      · rw [if_neg hhead] at h
        obtain ⟨⟨substCalls, afterSubst⟩, hparse, h⟩ := bind_eq_ok.mp h
        obtain ⟨⟨more, afterMore⟩, hmore, h⟩ := bind_eq_ok.mp h
        cases h
        obtain ⟨part, rfl, hpart⟩ := substitution_mentions hparse
        obtain ⟨covered, rfl, hcovered⟩ := ih hmore
        refine ⟨lit ++ (part ++ covered), by simp, ?_⟩
        rw [mentionsMacro_append hdollar, hpart covered (prefix_append ..), ← hcovered]
        simp [hfragment]

end Mentions

end Builra.Macro
