import Builra.Macro.Execution
import Builra.Macro.Balance

namespace Builra.Macro

open List

/-!
# `Macro.Compile` — the parser emits the code of the syntax tree

For the text of a well-formed tree the parser makes callbacks for which the delegate emits exactly the code of
the tree. The delegate keeps nesting levels; for the callbacks of a tree they return to what they were, and
matter only through the flag whether a reference is evaluated as a string.
-/

/-! ## Emission -/

namespace NestingLevels

variable (l : NestingLevels)

def Nonneg : Prop := 0 ≤ l.alwaysEvalAsStringNestingLevel ∧ 0 ≤ l.macroNameNestingLevel

/-- References are evaluated as strings at these levels. -/
def inString : Bool := l.alwaysEvalAsStringNestingLevel > 0 ∨ l.macroNameNestingLevel > 0

theorem afterAll_append (calls more : List Callback) :
    l.afterAll (calls ++ more) = (l.afterAll calls).afterAll more := by
  simp [afterAll]

end NestingLevels

/-- The callbacks emit this code, where `always` is the flag they were made with, and restore the levels. -/
def CompilesTo (always : Bool) (calls : List Callback) (code : Bool → List EvalInstr) : Prop :=
  ∀ l : NestingLevels, l.Nonneg → emit l calls = code (always || l.inString) ∧ l.afterAll calls = l

theorem compilesTo_nil (always : Bool) : CompilesTo always [] fun _ => [] :=
  fun _ _ => ⟨rfl, rfl⟩

variable {always : Bool} {calls : List Callback} {code code' : Bool → List EvalInstr} {name : Text}

theorem CompilesTo.append {more : List Callback} (h : CompilesTo always calls code)
    (h' : CompilesTo always more code') :
    CompilesTo always (calls ++ more) fun a => code a ++ code' a := by
  intro l hl
  obtain ⟨hemit, hafter⟩ := h l hl
  obtain ⟨hemit', hafter'⟩ := h' l hl
  rw [emit_append, NestingLevels.afterAll_append, hafter, hemit, hemit']
  exact ⟨rfl, hafter'⟩

theorem compilesTo_literal (always : Bool) (s : Text) :
    CompilesTo always (literalFragment (if s.isEmpty then none else some s)) fun _ => literalCode s := by
  intro l _
  cases s <;> exact ⟨rfl, rfl⟩

/-- The levels inside a substitution subexpression. -/
theorem levels_substitution (l : NestingLevels) (hl : l.Nonneg) (always : Bool) :
    (l.after (.foundStartOfSubstitutionSubexpression always)).Nonneg
      ∧ (l.after (.foundStartOfSubstitutionSubexpression always)).inString = (always || l.inString)
      ∧ (l.after (.foundStartOfSubstitutionSubexpression always)).after
          (.foundEndOfSubstitutionSubexpression always) = l := by
  obtain ⟨hstring, hname⟩ := hl
  cases always with
  | false => exact ⟨⟨hstring, hname⟩, rfl, rfl⟩
  | true =>
    refine ⟨⟨?_, hname⟩, ?_, ?_⟩
    · simp only [NestingLevels.after]
      omega
    · rw [Bool.true_or, NestingLevels.inString]
      exact decide_eq_true (.inl (show l.alwaysEvalAsStringNestingLevel + 1 > 0 by omega))
    · simp [NestingLevels.after]

/-- What the callbacks inside a substitution subexpression emit: there references are evaluated as strings at least
if the subexpression always is. -/
def EmitsWithin (always : Bool) (calls : List Callback) (code : Bool → List EvalInstr) : Prop :=
  ∀ l : NestingLevels, l.Nonneg → (always = true → l.inString = true) →
    emit l calls = code l.inString ∧ l.afterAll calls = l

theorem CompilesTo.within (h : CompilesTo always calls code) : EmitsWithin always calls code := by
  intro l hl hstring
  have hsame : (always || l.inString) = l.inString := by
    cases always with
    | false => rfl
    | true => rw [hstring rfl, Bool.or_self]
  have hl := h l hl
  rwa [hsame] at hl

theorem EmitsWithin.append {more : List Callback} (h : EmitsWithin always calls code)
    (h' : EmitsWithin always more code') :
    EmitsWithin always (calls ++ more) fun a => code a ++ code' a := by
  intro l hl hstring
  obtain ⟨hemit, hafter⟩ := h l hl hstring
  obtain ⟨hemit', hafter'⟩ := h' l hl hstring
  rw [emit_append, NestingLevels.afterAll_append, hafter, hemit, hemit']
  exact ⟨rfl, hafter'⟩

variable {nameCalls : List Callback} {nameCode : List EvalInstr}

/-- The name of a macro is evaluated as a string, and then looked up. -/
theorem emitsWithin_name (hname : CompilesTo true nameCalls fun _ => nameCode) (wasBracketed : Bool) :
    EmitsWithin always (.foundStartOfMacroName :: nameCalls ++ [.foundEndOfMacroName wasBracketed])
      fun a => .beginSubresult :: nameCode ++ [.evalNamedMacro a (!wasBracketed)] := by
  intro l hl _
  have hnonneg : (l.after .foundStartOfMacroName).Nonneg := by
    refine ⟨hl.1, ?_⟩
    have := hl.2
    simp only [NestingLevels.after]
    omega
  have hback : (l.after .foundStartOfMacroName).after (.foundEndOfMacroName wasBracketed) = l := by
    simp [NestingLevels.after]
  obtain ⟨hemit, hafter⟩ := hname _ hnonneg
  constructor
  · rw [cons_append, emit, emit_append, hemit, hafter, emit, hback]
    rfl
  · show ((l.after .foundStartOfMacroName).afterAll (nameCalls ++ [.foundEndOfMacroName wasBracketed])) = l
    rw [NestingLevels.afterAll_append, hafter]
    exact hback

theorem compilesTo_substitution (h : EmitsWithin always calls code) :
    CompilesTo always (.foundStartOfSubstitutionSubexpression always :: calls
        ++ [.foundEndOfSubstitutionSubexpression always])
      fun a => .beginSubresult :: code a ++ [.mergeSubresult] := by
  intro l hl
  obtain ⟨hnonneg, hinString, hback⟩ := levels_substitution l hl always
  have hstring : always = true → (l.after (.foundStartOfSubstitutionSubexpression always)).inString = true := by
    rintro rfl
    exact hinString
  obtain ⟨hemit, hafter⟩ := h _ hnonneg hstring
  rw [hinString] at hemit
  constructor
  · rw [cons_append, emit, emit_append, hemit, hafter, emit, hback]
    rfl
  · show ((l.after (.foundStartOfSubstitutionSubexpression always)).afterAll
      (calls ++ [.foundEndOfSubstitutionSubexpression always])) = l
    rw [NestingLevels.afterAll_append, hafter]
    exact hback

theorem compilesTo_dollar (always : Bool) : CompilesTo always
    [.foundStartOfSubstitutionSubexpression always, .foundLiteralStringFragment [ascii '$'],
      .foundEndOfSubstitutionSubexpression always] fun _ => dollarCode :=
  compilesTo_substitution (compilesTo_literal always [ascii '$']).within

/-- A reference, from its name and its operators. -/
theorem compilesTo_reference {operatorCalls : List Callback} {operatorsCode : Bool → List EvalInstr}
    (hname : CompilesTo true nameCalls fun _ => nameCode) (hoperators : CompilesTo always operatorCalls operatorsCode) :
    CompilesTo always (.foundStartOfSubstitutionSubexpression always :: (.foundStartOfMacroName :: nameCalls
        ++ .foundEndOfMacroName true :: operatorCalls) ++ [.foundEndOfSubstitutionSubexpression always])
      fun a => referenceCode a nameCode (operatorsCode a) := by
  have hinside := compilesTo_substitution ((emitsWithin_name hname true).append hoperators.within)
  simpa [referenceCode] using hinside

theorem CompilesTo.congr' {calls' : List Callback} (h : CompilesTo always calls code) (hcalls : calls = calls')
    (hcode : ∀ a, code a = code' a) :
    CompilesTo always calls' code' := by
  subst hcalls
  intro l hl
  rw [← hcode]
  exact h l hl

theorem CompilesTo.congr (h : CompilesTo always calls code) (hcode : ∀ a, code a = code' a) :
    CompilesTo always calls code' := by
  intro l hl
  rw [← hcode]
  exact h l hl

/-- What is compiled to evaluate as a string is so at all levels. -/
theorem CompilesTo.asString (h : CompilesTo true calls code) : CompilesTo always calls fun _ => code true :=
  fun l hl => h l hl

@[simp]
theorem retrieval_ofName (op : MacroEvaluationRetrievalOperator) :
    MacroEvaluationRetrievalOperator.ofName op.name = some op := by
  cases op <;> decide

variable (op : MacroEvaluationReplacementOperator)

@[simp]
theorem replacement_ofName :
    MacroEvaluationReplacementOperator.ofName op.name = some op := by
  cases op <;> decide

theorem compilesTo_retrieval {op : MacroEvaluationRetrievalOperator}
    (h : MacroEvaluationRetrievalOperator.ofName name = some op) (position : Nat) :
    CompilesTo always [.foundRetrievalOperator name position] fun _ => [.applyRetrievalOperator op] := by
  intro l _
  exact ⟨by simp [emit, emitted, h], rfl⟩

theorem compilesTo_replacement {op : MacroEvaluationReplacementOperator}
    (hname : MacroEvaluationReplacementOperator.ofName name = some op) (position : Nat) {operandCalls : List Callback}
    (h : CompilesTo always operandCalls code) :
    CompilesTo always (.foundStartOfReplacementOperator name :: operandCalls
        ++ [.foundEndOfReplacementOperator name position])
      fun a => .beginSubresult :: code a ++ [.applyReplacementOperator op] := by
  intro l hl
  obtain ⟨hemit, hafter⟩ := h l hl
  have hsame : l.after (.foundStartOfReplacementOperator name) = l := rfl
  constructor
  · rw [cons_append, emit, hsame, emit_append, hemit]
    simp [emit, emitted, hname]
  · rw [NestingLevels.afterAll_append]
    exact congrArg (fun m : NestingLevels => m.after (.foundEndOfReplacementOperator name position)) hafter

/-! ## Scanning -/

/-- A scan stops after literal text. -/
theorem scanUntil_append {block : UInt8 → Bool} {s r : Text} (hs : ∀ c ∈ s, block c = false)
    (hr : ∀ c, r.head? = some c → block c = true) :
    scanUntil block (s ++ r) = (if s.isEmpty then none else some s, r) := by
  have hpos : ∀ c ∈ s, (fun c => !block c) c = true := fun c hc => by simp [hs c hc]
  have hrest : r.takeWhile (fun c => !block c) = [] ∧ r.dropWhile (fun c => !block c) = r := by
    cases r with
    | nil => exact ⟨rfl, rfl⟩
    | cons c r =>
      have hc := hr c rfl
      exact ⟨takeWhile_cons_of_neg (by simp [hc]), dropWhile_cons_of_neg (by simp [hc])⟩
  unfold scanUntil
  rw [takeWhile_append_of_pos hpos, dropWhile_append_of_pos hpos, hrest.1, hrest.2, append_nil]

theorem retrieval_name_valid (op : MacroEvaluationRetrievalOperator) :
    op.name ≠ [] ∧ ∀ c ∈ op.name, isValidOperatorNameChar c = true := by
  have hname : op.name ≠ [] ∧ op.name.all isValidOperatorNameChar = true := by cases op <;> decide
  exact ⟨hname.1, all_eq_true.mp hname.2⟩

theorem replacement_name_valid :
    op.name ≠ [] ∧ ∀ c ∈ op.name, isValidOperatorNameChar c = true := by
  have hname : op.name ≠ [] ∧ op.name.all isValidOperatorNameChar = true := by cases op <;> decide
  exact ⟨hname.1, all_eq_true.mp hname.2⟩

/-- The name of an operator is scanned up to the character after it. -/
theorem scan_operatorName {r : Text} {c : UInt8} (hname : name ≠ [] ∧ ∀ c ∈ name, isValidOperatorNameChar c = true)
    (hc : isValidOperatorNameChar c = false) :
    scanUntil (fun c => !isValidOperatorNameChar c) (name ++ c :: r) = (some name, c :: r) := by
  rw [scanUntil_append (fun e he => by simp [hname.2 e he]) (fun e he => by
    cases he
    simp [hc])]
  simp [hname.1]

/-! ## Substitution subexpressions -/

section Substitution

variable (string : Text)

/-- What follows a name or an operand. -/
def Follows (r : Text) : Prop := ∃ c r', r = c :: r' ∧ (c = ascii ':' ∨ c = ascii ')')

theorem follows_operators (operators : Operators) (r : Text) : Follows (operators.text ++ ascii ')' :: r) := by
  cases operators with
  | done => exact ⟨_, r, rfl, .inr rfl⟩
  | retrieval op rest | replacement op operand rest => exact ⟨_, _, rfl, .inl rfl⟩

theorem parse_dollar (fuel : Nat) (always : Bool) (r : Text) :
    parseSubstitutionSubexpression string (fuel + 1) always (ascii '$' :: ascii '$' :: r)
      = .ok ([.foundStartOfSubstitutionSubexpression always, .foundLiteralStringFragment [ascii '$'],
          .foundEndOfSubstitutionSubexpression always], r) := by
  have hclose : getClosingDelimiter (ascii '$') = none := by decide
  have hname : isValidMacroName1stChar (ascii '$') = false := by decide
  simp [parseSubstitutionSubexpression, precondition, hclose, hname, slice, ok_bind]

/-- A reference, from the parses of its name and of its operators. -/
theorem parse_reference {fuel : Nat} {always : Bool} {name operators r : Text}
    {nameCalls operatorCalls : List Callback} (hne : name ≠ []) (hfollows : Follows (operators ++ ascii ')' :: r))
    (hname : parseSubstitutionSubexpressionFragment string fuel true (ascii ')')
      (name ++ (operators ++ ascii ')' :: r)) = .ok (nameCalls, operators ++ ascii ')' :: r))
    (hoperators : parseOperators string fuel always (ascii ')') (operators ++ ascii ')' :: r)
      = .ok (operatorCalls, ascii ')' :: r)) :
    parseSubstitutionSubexpression string (fuel + 1) always
        (ascii '$' :: ascii '(' :: (name ++ (operators ++ ascii ')' :: r)))
      = .ok (.foundStartOfSubstitutionSubexpression always :: (.foundStartOfMacroName :: nameCalls
          ++ .foundEndOfMacroName true :: operatorCalls) ++ [.foundEndOfSubstitutionSubexpression always], r) := by
  have hclose : getClosingDelimiter (ascii '(') = some (ascii ')') := by decide
  have hhead : operators ++ ascii ')' :: r = [] ∨ (operators ++ ascii ')' :: r).head? = some (ascii ':')
      ∨ (operators ++ ascii ')' :: r).head? = some (ascii ')') := by
    obtain ⟨c, r', heq, hc⟩ := hfollows
    rw [heq]
    rcases hc with rfl | rfl
    · exact .inr (.inl rfl)
    · exact .inr (.inr rfl)
  have hend : ascii ')' :: r = [] ∨ (ascii ')' :: r).head? = some (ascii ')') := .inr rfl
  rw [parseSubstitutionSubexpression]
  simp only [precondition_of (show (ascii '$' :: ascii '(' :: (name ++ (operators ++ ascii ')' :: r))).head?
    = some (ascii '$') from rfl), ok_bind, tail_cons, hclose, parseBracketed, hname, assert_of hhead,
    hoperators, assert_of hend]
  simp [hne]

variable {fuel : Nat} {r s mark : Text} {calls more : List Callback} {quotes : QuoteState} {e : Element}

/-- Literal text of a name or an operand up to its end. -/
theorem fragment_stop {always : Bool} (hs : Literal specialInBrackets s) (hr : Follows r) :
    parseSubstitutionSubexpressionFragment string (fuel + 1) always (ascii ')') (s ++ r)
      = .ok (literalFragment (if s.isEmpty then none else some s), r) := by
  obtain ⟨c, r', rfl, hc⟩ := hr
  have hscan : scanUntil (fun c => decide (c = ascii '$' ∨ c = ascii ':' ∨ c = ascii ')')) (s ++ c :: r')
      = (if s.isEmpty then none else some s, c :: r') := by
    apply scanUntil_append hs
    intro e he
    cases he
    rcases hc with rfl | rfl <;> decide
  have hne : c ≠ ascii '$' := by rcases hc with rfl | rfl <;> decide
  rw [parseSubstitutionSubexpressionFragment]
  simp only [append_eq_nil_iff, reduceCtorEq, and_false, if_false, hscan]
  rcases hc with rfl | rfl <;> simp [assert, ok_bind, hne]

/-- Literal text before a substitution subexpression. -/
theorem fragment_substitution {fuel : Nat} {always : Bool} {s r r₁ r₂ : Text} {calls more : List Callback}
    (hs : Literal specialInBrackets s)
    (hsubst : parseSubstitutionSubexpression string fuel always (ascii '$' :: r) = .ok (calls, r₁))
    (hmore : parseSubstitutionSubexpressionFragment string fuel always (ascii ')') r₁ = .ok (more, r₂)) :
    parseSubstitutionSubexpressionFragment string (fuel + 1) always (ascii ')') (s ++ ascii '$' :: r)
      = .ok (literalFragment (if s.isEmpty then none else some s) ++ calls ++ more, r₂) := by
  have hscan : scanUntil (fun c => decide (c = ascii '$' ∨ c = ascii ':' ∨ c = ascii ')')) (s ++ ascii '$' :: r)
      = (if s.isEmpty then none else some s, ascii '$' :: r) := by
    apply scanUntil_append hs
    intro e he
    cases he
    decide
  rw [parseSubstitutionSubexpressionFragment]
  simp only [append_eq_nil_iff, reduceCtorEq, and_false, if_false, hscan]
  simp [assert, ok_bind, hsubst, hmore]

theorem text_ne_nil {t : Fragment} (h : t.isEmpty = false) : t.text ≠ [] := by
  cases t with
  | literal s => simpa [Fragment.isEmpty, Fragment.text] using h
  | dollar s rest | reference s name operators rest => simp [Fragment.text]

/-- A replacement operator, from the parse of its operand. -/
theorem operator_replacement {parseOperand : Text → Parsed} {name operand : Text} (hr : Follows r)
    (hparse : parseOperand (operand ++ r) = .ok (calls, r)) :
    parseOperator string parseOperand (ascii ')') (some name) (ascii '=' :: (operand ++ r))
      = .ok (.foundStartOfReplacementOperator name :: calls
          ++ [.foundEndOfReplacementOperator name (index string r)], r) := by
  obtain ⟨c, r', rfl, hc⟩ := hr
  have hstop : ¬(ascii '=' = ascii ':' ∨ ascii '=' = ascii ')') := by decide
  simp only [parseOperator, hstop, if_false, if_true, hparse, ok_bind]
  rcases hc with rfl | rfl <;> simp [assert, ok_bind]

/-- An operator and the operators after it. -/
theorem operators_cons {fuel : Nat} {always : Bool} {name r r₁ r₂ : Text} {c : UInt8} {calls more : List Callback}
    (hname : name ≠ [] ∧ ∀ c ∈ name, isValidOperatorNameChar c = true)
    (hc : isValidOperatorNameChar c = false)
    (hoperator : parseOperator string (parseSubstitutionSubexpressionFragment string fuel always (ascii ')'))
      (ascii ')') (some name) (c :: r) = .ok (calls, r₁))
    (hmore : parseOperators string fuel always (ascii ')') r₁ = .ok (more, r₂)) :
    parseOperators string (fuel + 1) always (ascii ')') (ascii ':' :: (name ++ c :: r))
      = .ok (calls ++ more, r₂) := by
  rw [parseOperators]
  simp only [head?_cons, ne_eq, not_true_eq_false, if_false, tail_cons, scan_operatorName hname hc,
    hoperator, hmore, ok_bind]

mutual

theorem parse_fragment (always : Bool) : (t : Fragment) → ∀ (fuel : Nat) (r : Text), Follows r →
    t.WellFormed specialInBrackets → 2 * (t.text ++ r).length + 2 ≤ fuel →
    ∃ calls, parseSubstitutionSubexpressionFragment string fuel always (ascii ')') (t.text ++ r) = .ok (calls, r)
      ∧ CompilesTo always calls t.compile
  | .literal s, fuel, r, hr, hwf, hfuel => by
    obtain ⟨fuel, rfl⟩ : ∃ n, fuel = n + 1 := ⟨fuel - 1, by omega⟩
    exact ⟨_, fragment_stop string hwf hr, compilesTo_literal always s⟩
  | .dollar s rest, fuel, r, hr, hwf, hfuel => by
    obtain ⟨hs, hrest⟩ := hwf
    simp only [Fragment.text, append_assoc, cons_append, length_append, length_cons] at hfuel ⊢
    obtain ⟨fuel, rfl⟩ : ∃ n, fuel = n + 2 := ⟨fuel - 2, by omega⟩
    obtain ⟨more, hmore, hcode⟩ := parse_fragment always rest (fuel + 1) r hr hrest (by simp; omega)
    refine ⟨_, fragment_substitution string hs (parse_dollar string fuel always (rest.text ++ r)) hmore, ?_⟩
    exact ((compilesTo_literal always s).append (compilesTo_dollar always)).append hcode
  | .reference s name operators rest, fuel, r, hr, hwf, hfuel => by
    obtain ⟨hs, hne, hname, hoperators, hrest⟩ := hwf
    simp only [Fragment.text, append_assoc, cons_append, length_append, length_cons] at hfuel ⊢
    obtain ⟨fuel, rfl⟩ : ∃ n, fuel = n + 2 := ⟨fuel - 2, by omega⟩
    have hfollows := follows_operators operators (rest.text ++ r)
    obtain ⟨nameCalls, hparseName, hcodeName⟩ :=
      parse_fragment true name fuel (operators.text ++ ascii ')' :: (rest.text ++ r)) hfollows hname
        (by simp; omega)
    obtain ⟨operatorCalls, hparseOps, hcodeOps⟩ :=
      parse_operators always operators fuel (rest.text ++ r) hoperators (by simp; omega)
    obtain ⟨more, hmore, hcode⟩ := parse_fragment always rest (fuel + 1) r hr hrest (by simp; omega)
    refine ⟨_, fragment_substitution string hs
      (parse_reference string (text_ne_nil hne) hfollows hparseName hparseOps) hmore, ?_⟩
    exact ((compilesTo_literal always s).append
      (compilesTo_reference hcodeName.asString hcodeOps)).append hcode

theorem parse_operators (always : Bool) : (operators : Operators) → ∀ (fuel : Nat) (r : Text),
    operators.WellFormed → 2 * (operators.text ++ ascii ')' :: r).length + 2 ≤ fuel →
    ∃ calls, parseOperators string fuel always (ascii ')') (operators.text ++ ascii ')' :: r)
        = .ok (calls, ascii ')' :: r)
      ∧ CompilesTo always calls operators.compile
  | .done, fuel, r, _, hfuel => by
    obtain ⟨fuel, rfl⟩ : ∃ n, fuel = n + 1 := ⟨fuel - 1, by omega⟩
    have hne : ascii ')' ≠ ascii ':' := by decide
    exact ⟨[], by simp [Operators.text, parseOperators, hne], compilesTo_nil always⟩
  | .retrieval op rest, fuel, r, hwf, hfuel => by
    simp only [Operators.text, append_assoc, cons_append, length_append, length_cons]
      at hfuel ⊢
    obtain ⟨fuel, rfl⟩ : ∃ n, fuel = n + 1 := ⟨fuel - 1, by omega⟩
    obtain ⟨more, hmore, hcode⟩ := parse_operators always rest fuel r hwf (by simp; omega)
    obtain ⟨c, r', heq, hc⟩ := follows_operators rest r
    rw [heq] at hmore ⊢
    have hname : isValidOperatorNameChar c = false := by rcases hc with rfl | rfl <;> decide
    refine ⟨_, operators_cons string (retrieval_name_valid op) hname
      (by simp only [parseOperator, hc, if_true]; rfl) hmore, ?_⟩
    exact (compilesTo_retrieval (retrieval_ofName op) _).append hcode
  | .replacement op operand rest, fuel, r, hwf, hfuel => by
    obtain ⟨hoperand, hrest⟩ := hwf
    simp only [Operators.text, append_assoc, cons_append, length_append, length_cons]
      at hfuel ⊢
    obtain ⟨fuel, rfl⟩ : ∃ n, fuel = n + 1 := ⟨fuel - 1, by omega⟩
    have hfollows := follows_operators rest r
    obtain ⟨operandCalls, hparse, hcodeOperand⟩ :=
      parse_fragment always operand fuel (rest.text ++ ascii ')' :: r) hfollows hoperand (by simp; omega)
    obtain ⟨more, hmore, hcode⟩ := parse_operators always rest fuel r hrest (by simp; omega)
    have hname : isValidOperatorNameChar (ascii '=') = false := by decide
    refine ⟨_, operators_cons string (replacement_name_valid op) hname
      (operator_replacement string hfollows hparse) hmore, ?_⟩
    refine ((compilesTo_replacement (replacement_ofName op) _ hcodeOperand).append hcode).congr ?_
    intro a
    simp [Operators.compile]

end

/-- A well-formed reference. -/
theorem parse_referenceText (fuel : Nat) (always : Bool) {name : Fragment} {operators : Operators} (r : Text)
    (hne : name.isEmpty = false) (hname : name.WellFormed specialInBrackets) (hoperators : operators.WellFormed)
    (hfuel : 2 * (name.text ++ (operators.text ++ ascii ')' :: r)).length + 2 ≤ fuel) :
    ∃ calls, parseSubstitutionSubexpression string (fuel + 1) always
        (ascii '$' :: ascii '(' :: (name.text ++ (operators.text ++ ascii ')' :: r))) = .ok (calls, r)
      ∧ CompilesTo always calls fun a => referenceCode a (name.compile true) (operators.compile a) := by
  have hfollows := follows_operators operators r
  obtain ⟨nameCalls, hparseName, hcodeName⟩ := parse_fragment string true name fuel _ hfollows hname hfuel
  obtain ⟨operatorCalls, hparseOps, hcodeOps⟩ :=
    parse_operators string always operators fuel r hoperators (by simp at hfuel ⊢; omega)
  exact ⟨_, parse_reference string (text_ne_nil hne) hfollows hparseName hparseOps,
    compilesTo_reference hcodeName.asString hcodeOps⟩

/-! ## Strings -/

/-- Literal text of a string up to a `$` or the end. -/
theorem stringLoop_literal (hs : Literal specialInString s) (hr : r = [] ∨ r.head? = some (ascii '$')) (hne : s ≠ [])
    (hmore : parseAsStringLoop string fuel r = .ok (more, [])) :
    parseAsStringLoop string (fuel + 1) (s ++ r)
      = .ok (literalFragment (if s.isEmpty then none else some s) ++ more, []) := by
  have hscan : scanUntil (fun c => decide (c = ascii '$')) (s ++ r) = (if s.isEmpty then none else some s, r) := by
    apply scanUntil_append hs
    intro c hc
    rcases hr with rfl | hr
    · cases hc
    · rw [hr] at hc
      cases hc
      decide
  obtain ⟨c, s', rfl⟩ := exists_cons_of_ne_nil hne
  have hc : c ≠ ascii '$' := by simpa [specialInString] using hs c (by simp)
  have hhead : ((c :: s') ++ r).head? ≠ some (ascii '$') := by simpa using hc
  have hcons : (c :: s') ++ r ≠ [] := by simp
  rw [parseAsStringLoop, if_neg hcons, if_neg hhead]
  simp only [hscan, hmore, ok_bind]

theorem stringLoop_substitution {r₁ : Text}
    (hsubst : parseSubstitutionSubexpression string fuel true (ascii '$' :: r) = .ok (calls, r₁))
    (hmore : parseAsStringLoop string fuel r₁ = .ok (more, [])) :
    parseAsStringLoop string (fuel + 1) (ascii '$' :: r) = .ok (calls ++ more, []) := by
  rw [parseAsStringLoop]
  simp only [reduceCtorEq, if_false, head?_cons, if_true, hsubst, hmore, ok_bind]

/-- Literal text, which may be empty, before the rest of a string. -/
theorem stringLoop_append (code : Bool → List EvalInstr) (hs : Literal specialInString s)
    (hr : r = [] ∨ r.head? = some (ascii '$')) (hfuel : 2 * (s ++ r).length + 2 ≤ fuel)
    (hmore : ∀ n, 2 * r.length + 2 ≤ n →
      ∃ more, parseAsStringLoop string n r = .ok (more, []) ∧ CompilesTo true more code) :
    ∃ calls, parseAsStringLoop string fuel (s ++ r) = .ok (calls, [])
      ∧ CompilesTo true calls fun a => literalCode s ++ code a := by
  by_cases hne : s = []
  · subst hne
    obtain ⟨more, hparse, hcode⟩ := hmore fuel (by simpa using hfuel)
    exact ⟨more, hparse, hcode⟩
  · obtain ⟨fuel, rfl⟩ : ∃ n, fuel = n + 1 := ⟨fuel - 1, by omega⟩
    have hlen := length_pos_iff.mpr hne
    simp only [length_append] at hfuel
    obtain ⟨more, hparse, hcode⟩ := hmore fuel (by omega)
    exact ⟨_, stringLoop_literal string hs hr hne hparse, (compilesTo_literal true s).append hcode⟩

theorem parse_string : (t : Fragment) → ∀ fuel, t.WellFormed specialInString → 2 * t.text.length + 2 ≤ fuel →
    ∃ calls, parseAsStringLoop string fuel t.text = .ok (calls, []) ∧ CompilesTo true calls t.compile
  | .literal s, fuel, hwf, hfuel => by
    have hnil : ∀ n, 2 * ([] : Text).length + 2 ≤ n →
        ∃ more, parseAsStringLoop string n [] = .ok (more, []) ∧ CompilesTo true more fun _ => [] := by
      intro n hn
      obtain ⟨n, rfl⟩ : ∃ m, n = m + 1 := ⟨n - 1, by omega⟩
      exact ⟨[], by simp [parseAsStringLoop], compilesTo_nil true⟩
    obtain ⟨calls, hparse, hcode⟩ := stringLoop_append string _ hwf (.inl rfl) (by simpa [Fragment.text] using hfuel) hnil
    rw [append_nil] at hparse
    exact ⟨calls, hparse, hcode.congr (by simp [Fragment.compile])⟩
  | .dollar s rest, fuel, hwf, hfuel => by
    obtain ⟨hs, hrest⟩ := hwf
    refine (stringLoop_append string (r := ascii '$' :: ascii '$' :: rest.text)
      (fun a => dollarCode ++ rest.compile a) hs (.inr rfl) hfuel ?_).imp ?_
    · intro n hn
      simp only [length_cons] at hn
      obtain ⟨n, rfl⟩ : ∃ m, n = m + 2 := ⟨n - 2, by omega⟩
      obtain ⟨more, hparse, hcode⟩ := parse_string rest (n + 1) hrest (by omega)
      exact ⟨_, stringLoop_substitution string (parse_dollar string n true rest.text) hparse,
        (compilesTo_dollar true).append hcode⟩
    · rintro calls ⟨hparse, hcode⟩
      exact ⟨hparse, hcode.congr (by simp [Fragment.compile])⟩
  | .reference s name operators rest, fuel, hwf, hfuel => by
    obtain ⟨hs, hne, hname, hoperators, hrest⟩ := hwf
    refine (stringLoop_append string
      (r := ascii '$' :: ascii '(' :: (name.text ++ (operators.text ++ ascii ')' :: rest.text)))
      (fun a => referenceCode a (name.compile true) (operators.compile a) ++ rest.compile a) hs (.inr rfl)
      hfuel ?_).imp ?_
    · intro n hn
      simp only [length_cons, length_append] at hn
      obtain ⟨n, rfl⟩ : ∃ m, n = m + 2 := ⟨n - 2, by omega⟩
      obtain ⟨calls, hreference, hcode⟩ :=
        parse_referenceText string n true rest.text hne hname hoperators (by simp; omega)
      obtain ⟨more, hparse, hcode'⟩ := parse_string rest (n + 1) hrest (by omega)
      exact ⟨_, stringLoop_substitution string hreference hparse, hcode.append hcode'⟩
    · rintro calls ⟨hparse, hcode⟩
      exact ⟨hparse, hcode.congr (by simp [Fragment.compile])⟩

/-! ## List elements -/

/-- The state of the quotes and the special characters inside quotes of a kind. -/
def Quotes.state : Quotes → QuoteState
  | .double => .doubleQuotes
  | .single => .singleQuotes

/-- The characters that mean something in a list element, by the state of the quotes. -/
def specialIn : QuoteState → UInt8 → Bool
  | .noQuotes => specialInElement
  | .doubleQuotes => Quotes.double.special
  | .singleQuotes => Quotes.single.special

/-- Literal text is passed over. -/
theorem elementLoop_plain {c : UInt8} (hc : specialIn quotes c = false) :
    elementLoop string (fuel + 1) quotes mark (c :: r) = elementLoop string fuel quotes mark r := by
  have hspace : ∀ r : Text, isAtWhitespace (c :: r) = isAtWhitespace [c] := fun _ => rfl
  rw [elementLoop]
  cases quotes with
  | noQuotes =>
    simp only [specialIn, specialInElement, decide_eq_false_iff_not, not_or] at hc
    simp [hc, hspace]
  | doubleQuotes =>
    have hspecial : ¬(c = ascii '\\' ∨ c = ascii '$' ∨ c = ascii '"') := of_decide_eq_false hc
    simp only [not_or] at hspecial
    simp [hspecial]
  | singleQuotes =>
    have hspecial : ¬(c = ascii '\\' ∨ c = ascii '$' ∨ c = ascii '\'') := of_decide_eq_false hc
    simp only [not_or] at hspecial
    simp [hspecial]

theorem elementLoop_literal (hs : Literal (specialIn quotes) s) :
    elementLoop string (s.length + fuel) quotes mark (s ++ r) = elementLoop string fuel quotes mark r := by
  induction s with
  | nil => simp
  | cons c s ih =>
    have hlen : (c :: s).length + fuel = (s.length + fuel) + 1 := by simp; omega
    rw [hlen, cons_append, elementLoop_plain string (hs c (by simp))]
    exact ih fun e he => hs e (by simp [he])

theorem compilesTo_stringFormOnly (always : Bool) (s : Text) :
    CompilesTo always [.foundStringFormOnlyLiteralStringFragment s] fun _ => [.appendStringFormOnlyLiteral s] :=
  fun _ _ => ⟨rfl, rfl⟩

/-- What is emitted when the text after the mark ends. -/
theorem flush_append (s r : Text) :
    flush (s ++ r) r = literalFragment (if s.isEmpty then none else some s) := by
  unfold flush slice
  cases s with
  | nil => simp [literalFragment]
  | cons c s =>
    have hlen : r.length < (c :: s ++ r).length := by
      rw [length_append, length_cons]
      omega
    have hcut : (c :: s ++ r).length - r.length = (c :: s).length := by
      rw [length_append]
      omega
    have htake : (c :: s ++ r).take ((c :: s ++ r).length - r.length) = c :: s := by
      rw [hcut, take_left]
    rw [if_pos hlen, htake]
    rfl

/-- How the loop goes on: with what is left of its fuel, after callbacks, with the pending literal `pending`. -/
def Continues (fuel : Nat) (quotes : QuoteState) (mark start : Text) (calls : List Callback) (n : Nat)
    (quotes' : QuoteState) (mark' rest : Text) : Prop :=
  elementLoop string fuel quotes mark start = (do
    let (more, final) ← elementLoop string n quotes' mark' rest
    .ok (calls ++ more, final))

variable {string} in
theorem Continues.trans {n m : Nat} {q q' q'' : QuoteState} {mark' mark'' t : Text}
    (h : Continues string fuel q mark s calls n q' mark' r) (h' : Continues string n q' mark' r more m q'' mark'' t) :
    Continues string fuel q mark s (calls ++ more) m q'' mark'' t := by
  unfold Continues at *
  rw [h, h']
  cases elementLoop string m q'' mark'' t with
  | error e => rfl
  | ok x => simp [ok_bind]

theorem continues_of_eq {n : Nat} {q q' : QuoteState} {mark' : Text}
    (h : elementLoop string fuel q mark s = elementLoop string n q' mark' r) :
    Continues string fuel q mark s [] n q' mark' r := by
  unfold Continues
  rw [h]
  cases elementLoop string n q' mark' r with
  | error e => rfl
  | ok x => simp [ok_bind]

theorem continues_literal (hs : Literal (specialIn quotes) s) (mark r : Text) (hfuel : s.length ≤ fuel) :
    Continues string fuel quotes mark (s ++ r) [] (fuel - s.length) quotes mark r := by
  apply continues_of_eq string
  have hlen : fuel = s.length + (fuel - s.length) := by omega
  conv_lhs => rw [hlen]
  exact elementLoop_literal string hs

theorem continues_escaped (fuel : Nat) (quotes : QuoteState) (mark r : Text) (c : UInt8) :
    Continues string (fuel + 1) quotes mark (ascii '\\' :: c :: r)
      (flush mark (ascii '\\' :: c :: r) ++ [.foundStringFormOnlyLiteralStringFragment [ascii '\\']])
      fuel quotes (c :: r) r := by
  unfold Continues
  rw [elementLoop]
  simp

theorem continues_substitution {rest : Text}
    (h : parseSubstitutionSubexpression string fuel (quotes ≠ .noQuotes) (ascii '$' :: r) = .ok (calls, rest)) :
    Continues string (fuel + 1) quotes mark (ascii '$' :: r) (flush mark (ascii '$' :: r) ++ calls)
      fuel quotes rest rest := by
  have hne : ascii '$' ≠ ascii '\\' := by decide
  unfold Continues
  rw [elementLoop]
  simp only [hne, if_false, if_true, h, ok_bind]

/-- A part of an element: all of its text is read, with the literal text at its end still to be emitted. -/
theorem parse_parts (quotes : QuoteState) (p : Parts) (hwf : p.WellFormed (specialIn quotes)) (carry r : Text)
    (fuel : Nat) (hfuel : 2 * (p.text ++ r).length + 2 ≤ fuel) :
    ∃ calls n pending, Continues string fuel quotes (carry ++ (p.text ++ r)) (p.text ++ r) calls n quotes
        (pending ++ r) r
      ∧ 2 * r.length + 2 ≤ n
      ∧ CompilesTo (quotes ≠ .noQuotes) (calls ++ flush (pending ++ r) r) fun a => p.compile a carry := by
  induction p generalizing carry fuel with
  | literal s =>
    simp only [Parts.text, length_append] at hfuel ⊢
    refine ⟨[], fuel - s.length, carry ++ s, ?_, by omega, ?_⟩
    · rw [append_assoc]
      exact continues_literal string hwf _ r (by omega)
    · rw [flush_append]
      exact compilesTo_literal _ (carry ++ s)
  | escaped s c rest ih =>
    obtain ⟨hs, hrest⟩ := hwf
    simp only [Parts.text, append_assoc, cons_append, length_append, length_cons] at hfuel ⊢
    have hread := continues_literal string hs (carry ++ (s ++ ascii '\\' :: c :: (rest.text ++ r)))
      (ascii '\\' :: c :: (rest.text ++ r)) (show s.length ≤ fuel by omega)
    obtain ⟨m, hm⟩ : ∃ m, fuel - s.length = m + 1 := ⟨fuel - s.length - 1, by omega⟩
    rw [hm] at hread
    obtain ⟨calls, n, pending, hcont, hn, hcode⟩ := ih hrest [c] m (by simp; omega)
    refine ⟨_, n, pending, (hread.trans (continues_escaped string m quotes _ _ c)).trans hcont, hn, ?_⟩
    rw [← append_assoc carry, flush_append]
    refine ((compilesTo_literal _ (carry ++ s)).append
      ((compilesTo_stringFormOnly _ [ascii '\\']).append hcode)).congr' ?_ ?_
    · simp
    · intro a
      simp [Parts.compile]
  | dollar s rest ih =>
    obtain ⟨hs, hrest⟩ := hwf
    simp only [Parts.text, append_assoc, cons_append, length_append, length_cons] at hfuel ⊢
    have hread := continues_literal string hs (carry ++ (s ++ ascii '$' :: ascii '$' :: (rest.text ++ r)))
      (ascii '$' :: ascii '$' :: (rest.text ++ r)) (show s.length ≤ fuel by omega)
    obtain ⟨m, hm⟩ : ∃ m, fuel - s.length = m + 2 := ⟨fuel - s.length - 2, by omega⟩
    rw [hm] at hread
    obtain ⟨calls, n, pending, hcont, hn, hcode⟩ := ih hrest [] (m + 1) (by simp; omega)
    refine ⟨_, n, pending, (hread.trans (continues_substitution string
      (parse_dollar string m (quotes ≠ .noQuotes) (rest.text ++ r)))).trans hcont, hn, ?_⟩
    rw [← append_assoc carry, flush_append]
    refine ((compilesTo_literal _ (carry ++ s)).append ((compilesTo_dollar _).append hcode)).congr' ?_ ?_
    · simp
    · intro a
      simp [Parts.compile]
  | reference s name operators rest ih =>
    obtain ⟨hs, hne, hname, hoperators, hrest⟩ := hwf
    simp only [Parts.text, append_assoc, cons_append, length_append, length_cons] at hfuel ⊢
    have hread := continues_literal string hs
      (carry ++ (s ++ ascii '$' :: ascii '(' :: (name.text ++ (operators.text ++ ascii ')' :: (rest.text ++ r)))))
      (ascii '$' :: ascii '(' :: (name.text ++ (operators.text ++ ascii ')' :: (rest.text ++ r))))
      (show s.length ≤ fuel by omega)
    obtain ⟨m, hm⟩ : ∃ m, fuel - s.length = m + 2 := ⟨fuel - s.length - 2, by omega⟩
    rw [hm] at hread
    obtain ⟨refCalls, href, hrefCode⟩ := parse_referenceText string m (quotes ≠ .noQuotes) (rest.text ++ r)
      hne hname hoperators (by simp; omega)
    obtain ⟨calls, n, pending, hcont, hn, hcode⟩ := ih hrest [] (m + 1) (by simp; omega)
    refine ⟨_, n, pending, (hread.trans (continues_substitution string href)).trans hcont, hn, ?_⟩
    rw [← append_assoc carry, flush_append]
    refine ((compilesTo_literal _ (carry ++ s)).append (hrefCode.append hcode)).congr' ?_ ?_
    · simp
    · intro a
      simp [Parts.compile]

/-! ## Quotes -/

theorem quotes_state_ne (q : Quotes) : q.state ≠ .noQuotes := by
  cases q <;> decide

theorem specialIn_state (q : Quotes) : specialIn q.state = q.special := by
  cases q <;> rfl

/-- A quote that opens or closes, or a pair of adjacent quotes. -/
theorem continues_quote {q : Quotes} {quotes' : QuoteState} {rest : Text} (fuel : Nat) (mark : Text)
    (hquotes : quotes = .noQuotes ∨ quotes = q.state)
    (h : toggleQuotes q.char q.state quotes r = (calls, quotes', rest)) :
    Continues string (fuel + 1) quotes mark (q.char :: r) (flush mark (q.char :: r) ++ calls) fuel quotes' rest
      rest := by
  unfold Continues
  rw [elementLoop]
  cases q with
  | double =>
    have hplain : ascii '"' ≠ ascii '\\' ∧ ascii '"' ≠ ascii '$' := by decide
    have hstate : quotes ≠ .singleQuotes := by rcases hquotes with rfl | rfl <;> decide
    have hassert : quotes = .noQuotes ∨ quotes = .doubleQuotes := hquotes
    simp only [Quotes.char, Quotes.state] at h
    simp only [Quotes.char, hplain, if_false, hstate, ne_eq, not_false_eq_true, and_self, if_true,
      assert_of hassert, ok_bind, h]
  | single =>
    have hplain : ascii '\'' ≠ ascii '\\' ∧ ascii '\'' ≠ ascii '$' ∧ ascii '\'' ≠ ascii '"' := by decide
    have hstate : quotes ≠ .doubleQuotes := by rcases hquotes with rfl | rfl <;> decide
    have hassert : quotes = .noQuotes ∨ quotes = .singleQuotes := hquotes
    simp only [Quotes.char, Quotes.state] at h
    simp only [Quotes.char, hplain, if_false, hstate, ne_eq, not_false_eq_true, and_self, false_and, if_true,
      assert_of hassert, ok_bind, h]

/-- The first character of a part that is not empty. -/
theorem parts_head {special : UInt8 → Bool} {p : Parts} (hwf : p.WellFormed special) (hne : p.isEmpty = false) :
    ∃ c s, p.text = c :: s ∧ (special c = false ∨ c = ascii '\\' ∨ c = ascii '$') := by
  have hliteral : ∀ (s r : Text) (c : UInt8), Literal special s → c = ascii '\\' ∨ c = ascii '$' →
      ∃ e t, s ++ c :: r = e :: t ∧ (special e = false ∨ e = ascii '\\' ∨ e = ascii '$') := by
    intro s r c hs hc
    cases s with
    | nil => exact ⟨c, r, rfl, .inr hc⟩
    | cons e s => exact ⟨e, s ++ c :: r, rfl, .inl (hs e (by simp))⟩
  cases p with
  | literal s =>
    cases s with
    | nil => cases hne
    | cons c s => exact ⟨c, s, rfl, .inl (hwf c (by simp))⟩
  | escaped s c rest => exact hliteral s _ _ hwf.1 (.inl rfl)
  | dollar s rest | reference s name operators rest => exact hliteral s _ _ hwf.1 (.inr rfl)

theorem parts_text_isEmpty {p : Parts} (h : p.isEmpty = true) : p.text = [] := by
  cases p with
  | literal s => simpa [Parts.isEmpty, Parts.text] using h
  | escaped s c rest | dollar s rest | reference s name operators rest => cases h

/-- What a quoted part emits after the flush of the text before it. -/
theorem parse_quoted {q : Quotes} {inside : Parts} (hwf : inside.WellFormed q.special) (mark r : Text) (fuel : Nat)
    (hfuel : 2 * (q.char :: (inside.text ++ q.char :: r)).length + 2 ≤ fuel) :
    ∃ calls n, Continues string fuel .noQuotes mark (q.char :: (inside.text ++ q.char :: r))
        (flush mark (q.char :: (inside.text ++ q.char :: r)) ++ calls) n .noQuotes r r
      ∧ 2 * r.length + 2 ≤ n ∧ CompilesTo false calls fun _ => quotedCode q inside := by
  simp only [length_append, length_cons] at hfuel
  obtain ⟨fuel, rfl⟩ : ∃ m, fuel = m + 1 := ⟨fuel - 1, by omega⟩
  cases hempty : inside.isEmpty with
  | true =>
    have htext := parts_text_isEmpty hempty
    rw [htext, nil_append]
    refine ⟨_, fuel, continues_quote string fuel mark (.inl rfl) (by simp [toggleQuotes]; rfl), by omega, ?_⟩
    intro l _
    exact ⟨by simp [emit, emitted, quotedCode, hempty], rfl⟩
  | false =>
    obtain ⟨c, s, htext, hc⟩ := parts_head hwf hempty
    have hhead : (inside.text ++ q.char :: r).head? ≠ some q.char := by
      rw [htext, cons_append, head?_cons]
      intro heq
      cases heq
      rcases hc with hc | hc | hc
      · simp [Quotes.special] at hc
      · exact absurd hc (by cases q <;> decide)
      · exact absurd hc (by cases q <;> decide)
    have htoggle : toggleQuotes q.char q.state .noQuotes (inside.text ++ q.char :: r)
        = ([.foundStringFormOnlyLiteralStringFragment [q.char]], q.state, inside.text ++ q.char :: r) := by
      unfold toggleQuotes
      rw [if_neg fun h => hhead h.2, if_pos rfl]
    have hopen := continues_quote string fuel mark (.inl rfl) htoggle
    obtain ⟨calls, n, pending, hinside, hn, hcode⟩ := parse_parts string q.state inside
      (by rwa [specialIn_state]) [] (q.char :: r) fuel (by simp; omega)
    obtain ⟨n, rfl⟩ : ∃ m, n = m + 1 := ⟨n - 1, by simp at hn; omega⟩
    have htoggle' : toggleQuotes q.char q.state q.state r
        = ([.foundStringFormOnlyLiteralStringFragment [q.char]], .noQuotes, r) := by
      simp [toggleQuotes, quotes_state_ne q]
    have hclose := continues_quote string n (pending ++ q.char :: r) (.inr rfl) htoggle'
    have hall := (hopen.trans hinside).trans hclose
    rw [append_assoc, append_assoc] at hall
    refine ⟨_, n, hall, by simp at hn; omega, ?_⟩
    have hstring := compilesTo_stringFormOnly false [q.char]
    have hin : CompilesTo false (calls ++ flush (pending ++ q.char :: r) (q.char :: r))
        fun _ => inside.compile true [] := by
      simp only [ne_eq, quotes_state_ne q, not_false_eq_true, decide_true] at hcode
      exact hcode.asString
    refine ((hstring.append hin).append hstring).congr' ?_ ?_
    · simp
    · intro a
      simp [quotedCode, hempty]

/-! ## Elements -/

/-- The callbacks emit this code outside of all substitution subexpressions. -/
def Emits (calls : List Callback) (code : List EvalInstr) : Prop :=
  emit {} calls = code ∧ ({} : NestingLevels).afterAll calls = {}

theorem emits_nil : Emits [] [] := ⟨rfl, rfl⟩

theorem Emits.append {code code' : List EvalInstr} (h : Emits calls code) (h' : Emits more code') :
    Emits (calls ++ more) (code ++ code') := by
  unfold Emits at *
  rw [emit_append, NestingLevels.afterAll_append, h.1, h.2, h'.1, h'.2]
  exact ⟨rfl, rfl⟩

theorem CompilesTo.emits {code : Bool → List EvalInstr} (h : CompilesTo false calls code) :
    Emits calls (code false) :=
  h {} ⟨Int.le_refl 0, Int.le_refl 0⟩

/-- The groups of an element, before its last part. -/
theorem parse_groups {groups : List (Parts × Quotes × Parts)} (after : Text) (fuel : Nat)
    (hwf : ∀ g ∈ groups, g.1.WellFormed specialInElement ∧ g.2.2.WellFormed g.2.1.special)
    (hfuel : 2 * (groupsText groups after).length + 2 ≤ fuel) :
    ∃ calls n, Continues string fuel .noQuotes (groupsText groups after) (groupsText groups after) calls n .noQuotes
        after after
      ∧ 2 * after.length + 2 ≤ n ∧ Emits calls (groupsCode groups) := by
  induction groups generalizing fuel with
  | nil => exact ⟨[], fuel, continues_of_eq string rfl, hfuel, emits_nil⟩
  | cons g groups ih =>
    obtain ⟨parts, q, inside⟩ := g
    obtain ⟨⟨hparts, hinside⟩, hgroups⟩ := forall_mem_cons.mp hwf
    simp only [groupsText] at hfuel ⊢
    obtain ⟨calls, n, pending, hcont, hn, hcode⟩ := parse_parts string .noQuotes parts hparts []
      (q.char :: (inside.text ++ q.char :: groupsText groups after)) fuel hfuel
    obtain ⟨calls', n', hcont', hn', hcode'⟩ := parse_quoted string hinside
      (pending ++ q.char :: (inside.text ++ q.char :: groupsText groups after)) (groupsText groups after) n hn
    obtain ⟨more, m, hmore, hm, hcode''⟩ := ih n' hgroups hn'
    refine ⟨_, m, (hcont.trans hcont').trans hmore, hm, ?_⟩
    have hemits := (CompilesTo.emits hcode).append (hcode'.emits.append hcode'')
    simp only [append_assoc] at hemits ⊢
    rw [groupsCode, append_assoc]
    exact hemits

/-- What follows an element. -/
def EndsElement (r : Text) : Prop := r = [] ∨ isAtWhitespace r = true

theorem elementLoop_end (hr : EndsElement r) :
    elementLoop string (fuel + 1) .noQuotes mark r = .ok ([], .noQuotes, mark, r) := by
  cases r with
  | nil => rw [elementLoop]
  | cons c r =>
    have hspace : isAtWhitespace (c :: r) = true := hr.resolve_left (by simp)
    have hplain : c ≠ ascii '\\' ∧ c ≠ ascii '$' ∧ c ≠ ascii '"' ∧ c ≠ ascii '\'' := by
      refine ⟨?_, ?_, ?_, ?_⟩ <;>
      · rintro rfl
        exact absurd hspace (by simp [isAtWhitespace]; decide)
    rw [elementLoop]
    simp [hplain, hspace]

theorem groupsText_append (groups : List (Parts × Quotes × Parts)) (after r : Text) :
    groupsText groups after ++ r = groupsText groups (after ++ r) := by
  induction groups with
  | nil => rfl
  | cons g groups ih => simp [groupsText, ih]

/-- The first character of an element is no whitespace. -/
theorem element_head (hwf : e.WellFormed) :
    ∃ c s, e.text = c :: s ∧ isAtWhitespace [c] = false := by
  have hparts : ∀ p : Parts, p.WellFormed specialInElement → p.isEmpty = false →
      ∃ c s, p.text = c :: s ∧ isAtWhitespace [c] = false := by
    intro p hp hne
    obtain ⟨c, s, htext, hc⟩ := parts_head hp hne
    refine ⟨c, s, htext, ?_⟩
    rcases hc with hc | rfl | rfl
    · simp only [specialInElement, decide_eq_false_iff_not, not_or, Bool.not_eq_true] at hc
      exact hc.2.2.2.2
    · decide
    · decide
  obtain ⟨groups, last⟩ := e
  cases groups with
  | nil => exact hparts last hwf.last (hwf.nonempty.resolve_left (by simp))
  | cons g groups =>
    obtain ⟨parts, q, inside⟩ := g
    obtain ⟨hp, -⟩ := hwf.groups (parts, q, inside) (by simp)
    simp only [Element.text, groupsText]
    cases hempty : parts.isEmpty with
    | true =>
      rw [parts_text_isEmpty hempty]
      exact ⟨q.char, _, rfl, by cases q <;> decide⟩
    | false =>
      obtain ⟨c, s, htext, hc⟩ := hparts parts hp hempty
      rw [htext]
      exact ⟨c, _, rfl, hc⟩

theorem parse_element (hwf : e.WellFormed) (hr : EndsElement r) (fuel : Nat)
    (hfuel : 2 * (e.text ++ r).length + 2 ≤ fuel) :
    ∃ calls, parseQuotedExpressionStringElement string fuel (e.text ++ r) = .ok (calls, r)
      ∧ Emits calls e.compile := by
  obtain ⟨c, s, htext, hc⟩ := element_head hwf
  have hpre : e.text ++ r ≠ [] ∧ isAtWhitespace (e.text ++ r) = false := by
    rw [htext]
    exact ⟨by simp, hc⟩
  have hgroupsText : e.text ++ r = groupsText e.groups (e.last.text ++ r) := groupsText_append ..
  rw [hgroupsText] at hfuel hpre ⊢
  obtain ⟨calls, n, hcont, hn, hcode⟩ := parse_groups string (e.last.text ++ r) fuel hwf.groups hfuel
  obtain ⟨more, m, pending, hcont', hm, hcode'⟩ := parse_parts string .noQuotes e.last hwf.last [] r n hn
  have hloop := hcont.trans hcont'
  obtain ⟨m, rfl⟩ : ∃ k, m = k + 1 := ⟨m - 1, by omega⟩
  unfold Continues at hloop
  simp only [elementLoop_end string hr, ok_bind] at hloop
  refine ⟨calls ++ (more ++ flush (pending ++ r) r), ?_, hcode.append (CompilesTo.emits hcode')⟩
  have hend : r = [] ∨ isAtWhitespace r = true := hr
  simp only [parseQuotedExpressionStringElement, precondition_of hpre, ok_bind, hloop, precondition_of hend]
  simp

/-! ## String lists -/

/-- What follows whitespace. -/
def EndsWhitespace (r : Text) : Prop := r = [] ∨ ∃ c s, r = c :: s ∧ isAtWhitespace [c] = false

/-- Whitespace is read up to its end. -/
theorem parseWhitespace_append {w : Text} (hw : Whitespace w) (hr : EndsWhitespace r) (hne : w ≠ [])
    (separator : Bool) :
    parseWhitespace separator (w ++ r)
      = (if separator = true ∧ r ≠ [] then [.foundListElementSeparator w]
          else [.foundStringFormOnlyLiteralStringFragment w], r) := by
  have hafter : (w ++ r).dropWhile (fun c => isAtWhitespace [c]) = r := by
    rw [dropWhile_append_of_pos hw]
    rcases hr with rfl | ⟨c, s, rfl, hc⟩
    · rfl
    · exact dropWhile_cons_of_neg (by simp [hc])
  have hslice : slice (w ++ r) r = w := by
    unfold slice
    rw [length_append, Nat.add_sub_cancel, take_left]
  obtain ⟨c, s, rfl⟩ := exists_cons_of_ne_nil hne
  have hspace : isAtWhitespace ((c :: s) ++ r) = true := hw c (by simp)
  unfold parseWhitespace
  rw [if_pos hspace, hafter]
  simp only [hslice]
  split <;> rfl

theorem parseWhitespace_none (hr : EndsWhitespace r) (separator : Bool) :
    parseWhitespace separator r = ([], r) := by
  rcases hr with rfl | ⟨c, s, rfl, hc⟩
  · rfl
  · have hspace : isAtWhitespace (c :: s) = false := hc
    unfold parseWhitespace
    rw [hspace]
    rfl

/-- Whitespace that separates no elements. -/
theorem parseWhitespace_emits {w : Text} (hw : Whitespace w) (hr : EndsWhitespace r) (separator : Bool)
    (hseparator : separator = true → r = []) :
    ∃ calls, parseWhitespace separator (w ++ r) = (calls, r) ∧ Emits calls (whitespaceCode w) := by
  by_cases hne : w = []
  · subst hne
    exact ⟨[], parseWhitespace_none hr separator, emits_nil⟩
  · have hlast : ¬(separator = true ∧ r ≠ []) := fun h => h.2 (hseparator h.1)
    refine ⟨_, parseWhitespace_append hw hr hne separator, ?_⟩
    rw [if_neg hlast, whitespaceCode, if_neg hne]
    exact ⟨rfl, rfl⟩

theorem endsWhitespace_element (hwf : e.WellFormed) (r : Text) : EndsWhitespace (e.text ++ r) := by
  obtain ⟨c, s, htext, hc⟩ := element_head hwf
  rw [htext]
  exact .inr ⟨c, s ++ r, rfl, hc⟩

theorem endsElement_whitespace {w : Text} (hw : Whitespace w) (hne : w ≠ []) : EndsElement (w ++ r) := by
  obtain ⟨c, s, rfl⟩ := exists_cons_of_ne_nil hne
  exact .inr (hw c (by simp))

variable {more : List (Text × Element)}

theorem endsElement_moreText {trailing : Text} (hmore : ∀ m ∈ more, m.1 ≠ [] ∧ Whitespace m.1 ∧ m.2.WellFormed)
    (htrailing : Whitespace trailing) :
    EndsElement (moreText more trailing) := by
  cases more with
  | nil =>
    by_cases hne : trailing = []
    · exact .inl hne
    · simpa [moreText] using endsElement_whitespace (r := []) htrailing hne
  | cons m more =>
    obtain ⟨hne, hw, -⟩ := hmore m (by simp)
    exact endsElement_whitespace hw hne

theorem element_text_ne_nil (hwf : e.WellFormed) (r : Text) : e.text ++ r ≠ [] := by
  obtain ⟨c, s, htext, -⟩ := element_head hwf
  simp [htext]

/-- The elements after the first, and the trailing whitespace. -/
theorem parse_more {trailing : Text} (hmore : ∀ m ∈ more, m.1 ≠ [] ∧ Whitespace m.1 ∧ m.2.WellFormed)
    (htrailing : Whitespace trailing) (fuel : Nat) (hfuel : 2 * (moreText more trailing).length + 2 ≤ fuel) :
    ∃ calls, parseAsStringListLoop string fuel (moreText more trailing) = .ok (calls, [])
      ∧ Emits calls (moreCode more ++ whitespaceCode trailing) := by
  induction more generalizing fuel with
  | nil =>
    obtain ⟨fuel, rfl⟩ : ∃ n, fuel = n + 1 := ⟨fuel - 1, by omega⟩
    simp only [moreText, moreCode, nil_append]
    obtain ⟨calls, hparse, hemits⟩ := parseWhitespace_emits htrailing (.inl rfl) true fun _ => rfl
    rw [append_nil] at hparse
    refine ⟨calls, ?_, hemits⟩
    rw [parseAsStringListLoop]
    by_cases hne : trailing = []
    · subst hne
      cases hparse
      rfl
    · simp only [if_neg hne, hparse, if_true]
  | cons m more ih =>
    obtain ⟨w, e⟩ := m
    obtain ⟨⟨hne, hw, he⟩, hrest⟩ := forall_mem_cons.mp hmore
    have hlen : 0 < w.length := length_pos_iff.mpr hne
    simp only [moreText, length_append] at hfuel ⊢
    obtain ⟨fuel, rfl⟩ : ∃ n, fuel = n + 1 := ⟨fuel - 1, by omega⟩
    have hends := endsElement_moreText hrest htrailing
    have hcons := element_text_ne_nil he (moreText more trailing)
    obtain ⟨calls, hparse, hemits⟩ := parse_element string he hends fuel (by simp; omega)
    obtain ⟨moreCalls, hloop, hmoreEmits⟩ := ih hrest fuel (by omega)
    have hspace := parseWhitespace_append hw (endsWhitespace_element he (moreText more trailing)) hne true
    rw [if_pos ⟨rfl, hcons⟩] at hspace
    have hassert : moreText more trailing = [] ∨ isAtWhitespace (moreText more trailing) = true := hends
    have hstart : w ++ (e.text ++ moreText more trailing) ≠ [] := by simp [hne]
    refine ⟨[.foundListElementSeparator w] ++ calls ++ moreCalls, ?_, ?_⟩
    · rw [parseAsStringListLoop, if_neg hstart]
      simp only [hspace, if_neg hcons, hparse, ok_bind, assert_of hassert, hloop]
    · have hseparator : Emits [.foundListElementSeparator w] [.setNeedsListSeparator w] := ⟨rfl, rfl⟩
      simpa [moreCode] using hseparator.append (hemits.append hmoreEmits)

/-- A well-formed string list is parsed to its code. -/
theorem parse_listText {t : ListText} (hwf : t.WellFormed) :
    ∃ calls, parseAsStringList t.text (enoughFuel t.text) = .ok (calls, []) ∧ Emits calls t.compile := by
  cases t with
  | blank w =>
    obtain ⟨calls, hparse, hemits⟩ := parseWhitespace_emits hwf (.inl rfl) false (by simp)
    rw [append_nil] at hparse
    refine ⟨calls, ?_, hemits⟩
    simp only [parseAsStringList, ListText.text, hparse, if_true]
  | elements leading first more trailing =>
    obtain ⟨hleading, hfirst, hmore, htrailing⟩ := hwf
    obtain ⟨calls, hparse, hemits⟩ := parseWhitespace_emits hleading
      (endsWhitespace_element hfirst (moreText more trailing)) false (by simp)
    have hcons := element_text_ne_nil hfirst (moreText more trailing)
    have hfuel : 2 * (leading ++ (first.text ++ moreText more trailing)).length + 2
        ≤ enoughFuel (ListText.elements leading first more trailing).text := le_refl _
    simp only [length_append] at hfuel
    generalize hstring : (ListText.elements leading first more trailing).text = string at hfuel ⊢
    obtain ⟨firstCalls, hparse', hemits'⟩ := parse_element string hfirst
      (endsElement_moreText hmore htrailing) (enoughFuel string) (by simp; omega)
    obtain ⟨moreCalls, hparse'', hemits''⟩ := parse_more string hmore htrailing (enoughFuel string) (by omega)
    have htext : string = leading ++ (first.text ++ moreText more trailing) := hstring.symm
    refine ⟨calls ++ firstCalls ++ moreCalls, ?_, ?_⟩
    · unfold parseAsStringList
      simp only [htext] at hparse' hparse'' ⊢
      simp only [hparse, if_neg hcons, hparse', ok_bind, hparse'', assert_of]
    · simpa [ListText.compile] using hemits.append (hemits'.append hemits'')

/-- A well-formed string is parsed to its code; an empty one appends the empty string. -/
theorem parse_stringText {t : Fragment} (hwf : t.WellFormed specialInString) :
    ∃ calls, parseAsString t.text (enoughFuel t.text) = .ok (calls, [])
      ∧ Emits calls (if t.isEmpty then [.appendLiteral []] else t.compile true) := by
  cases hempty : t.isEmpty with
  | true =>
    have htext : t.text = [] := by
      cases t with
      | literal s => simpa [Fragment.isEmpty, Fragment.text] using hempty
      | dollar s rest | reference s name operators rest => cases hempty
    rw [htext]
    exact ⟨_, rfl, rfl, rfl⟩
  | false =>
    obtain ⟨calls, hparse, hcode⟩ := parse_string t.text t (enoughFuel t.text) hwf (le_refl _)
    refine ⟨calls, ?_, hcode.asString.emits⟩
    unfold parseAsString
    rw [if_neg (text_ne_nil hempty)]
    simp only [hparse, ok_bind, assert_of]

end Substitution

end Builra.Macro
