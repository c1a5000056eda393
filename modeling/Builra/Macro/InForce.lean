import Builra.Macro.Scope

namespace Builra.Macro

/-!
# `Macro.InForce` — what evaluation can see of a table

Evaluating a macro looks along its assignments for those whose conditions match, and a program that refers to
the macro itself goes on to the next of them. A literal refers to nothing, so no evaluation looks past it:
`inForce` is the list of expressions that evaluation can reach. Two scopes with the same expressions in force
evaluate everything alike (`SameEvaluation`).
-/

/-- `isLiteral`. -/
def MacroEvaluationProgram.isLiteral : MacroEvaluationProgram → Bool
  | .empty => true
  | .literal _ => true
  | .instructions _ => false

def MacroExpression.isLiteral (expr : MacroExpression) : Bool := expr.evalProgram.isLiteral

/-- Whether an assignment applies to these parameter values. -/
def MacroValueAssignment.applies (fns : MatchFunctions) (paramValues : ConditionParameterValues)
    (v : MacroValueAssignment) : Bool :=
  match v.conditions with
  | none => true
  | some conditions => conditions.all (MacroCondition.evaluate fns paramValues)

/-- The expressions that evaluation can reach through a chain: those of the assignments that apply, up to the first
literal. -/
def inForce (fns : MatchFunctions) (paramValues : ConditionParameterValues) :
    List MacroValueAssignment → List MacroExpression
  | [] => []
  | v :: next =>
    if v.applies fns paramValues then
      v.expression :: (if v.expression.isLiteral then [] else inForce fns paramValues next)
    else inForce fns paramValues next

section Chains

variable {fns : MatchFunctions} {paramValues : ConditionParameterValues}

theorem firstMatchingCondition_cons (v : MacroValueAssignment) (next : List MacroValueAssignment) :
    firstMatchingCondition fns paramValues (v :: next)
      = if v.applies fns paramValues then v :: next else firstMatchingCondition fns paramValues next := by
  unfold firstMatchingCondition MacroValueAssignment.applies
  rw [List.dropWhile_cons]
  cases v.conditions with
  | none => rfl
  | some conditions =>
    by_cases hall : conditions.all (MacroCondition.evaluate fns paramValues) = true
    · simp only [hall, Bool.not_true, Bool.false_eq_true, if_false, if_true]
    · simp only [hall, Bool.not_false, Bool.false_eq_true, if_false, if_true]

/-- What is in force is found by looking for the first assignment that applies. -/
theorem inForce_eq (chain : List MacroValueAssignment) :
    inForce fns paramValues chain =
      match firstMatchingCondition fns paramValues chain with
      | [] => []
      | v :: next => v.expression :: (if v.expression.isLiteral then [] else inForce fns paramValues next) := by
  induction chain with
  | nil => rfl
  | cons v next ih =>
    rw [inForce, firstMatchingCondition_cons]
    split
    · rfl
    · exact ih

end Chains

/-! ## Runs that see the same -/

/-- Two resolutions of a name to values that evaluate alike. -/
inductive ResolutionsAgree {β γ : Type}
    (evaluate : β → Bool → MacroEvaluationResultBuilder → Except Halt MacroEvaluationResultBuilder)
    (evaluate' : γ → Bool → MacroEvaluationResultBuilder → Except Halt MacroEvaluationResultBuilder) :
    Resolution β → Resolution γ → Prop
  | unknownMacro : ResolutionsAgree evaluate evaluate' .unknownMacro .unknownMacro
  | noValue (type : MacroType) : ResolutionsAgree evaluate evaluate' (.noValue type) (.noValue type)
  | value {v v'} (h : evaluate v = evaluate' v') :
    ResolutionsAgree evaluate evaluate' (.value v) (.value v')

/-- A run depends only on what the names resolve to and how that is evaluated. -/
theorem executeProgram_agree {β γ : Type} (fns : StringFunctions) {resolve : Text → Resolution β}
    {resolve' : Text → Resolution γ}
    {evaluate : β → Bool → MacroEvaluationResultBuilder → Except Halt MacroEvaluationResultBuilder}
    {evaluate' : γ → Bool → MacroEvaluationResultBuilder → Except Halt MacroEvaluationResultBuilder}
    (h : ∀ s, ResolutionsAgree evaluate evaluate' (resolve s) (resolve' s)) (alwaysEvalAsString debug : Bool)
    (program : MacroEvaluationProgram) (rb : MacroEvaluationResultBuilder) :
    executeProgram fns resolve evaluate alwaysEvalAsString debug program rb
      = executeProgram fns resolve' evaluate' alwaysEvalAsString debug program rb := by
  have hstep : executeInstruction fns resolve evaluate alwaysEvalAsString
      = executeInstruction fns resolve' evaluate' alwaysEvalAsString := by
    funext m i
    cases i with
    | evalNamedMacro asString preserves =>
      obtain ⟨stack, rb⟩ := m
      cases stack with
      | nil => rfl
      | cons nb rest =>
        have hresolve := h nb.buildString
        simp only [executeInstruction]
        generalize resolve nb.buildString = r at hresolve ⊢
        generalize resolve' nb.buildString = r' at hresolve ⊢
        cases hresolve with
        | unknownMacro => rfl
        | noValue type => rfl
        | value hv => simp only [hv]
    | _ => rfl
  cases program with
  | instructions is =>
    unfold executeProgram runInstructions
    rw [hstep]
  | _ => rfl

/-! ## Scopes that see the same -/

/-- Two scopes over the same declarations, with the same expressions in force for every macro. -/
structure ScopesAgree (mfns : MatchFunctions) (s₁ s₂ : MacroEvaluationScope) : Prop where
  macroNamespace : s₁.table.macroNamespace = s₂.table.macroNamespace
  newValue : newValueDeclaration s₁ = newValueDeclaration s₂
  chains : ∀ decl, inForce mfns s₁.conditionParameterValues (s₁.table.lookupMacro decl)
    = inForce mfns s₂.conditionParameterValues (s₂.table.lookupMacro decl)

section Scopes

variable {mfns : MatchFunctions} {s₁ s₂ : MacroEvaluationScope}

/-- Two contexts in which every macro under evaluation goes on to the same expressions. -/
inductive ContextsAgree (mfns : MatchFunctions) (s₁ s₂ : MacroEvaluationScope) :
    MacroEvaluationContext → MacroEvaluationContext → Prop
  | root (decl : Option MacroDeclaration) (v₁ v₂ : List MacroValueAssignment)
    (lookup : MacroDeclaration → Option MacroExpression)
    (h : inForce mfns s₁.conditionParameterValues v₁.tail = inForce mfns s₂.conditionParameterValues v₂.tail) :
    ContextsAgree mfns s₁ s₂ (.root decl v₁ lookup) (.root decl v₂ lookup)
  | nested (decl : MacroDeclaration) (v₁ v₂ : List MacroValueAssignment) {c₁ c₂}
    (h : inForce mfns s₁.conditionParameterValues v₁.tail = inForce mfns s₂.conditionParameterValues v₂.tail)
    (hparent : ContextsAgree mfns s₁ s₂ c₁ c₂) :
    ContextsAgree mfns s₁ s₂ (.nested decl v₁ c₁) (.nested decl v₂ c₂)

variable {c₁ c₂ : MacroEvaluationContext}

theorem ContextsAgree.decl (h : ContextsAgree mfns s₁ s₂ c₁ c₂) :
    c₁.decl = c₂.decl := by
  cases h <;> rfl

section

variable (h : ScopesAgree mfns s₁ s₂)
include h

theorem ScopesAgree.lookupMacroInContext (hc : ContextsAgree mfns s₁ s₂ c₁ c₂)
    (name : Text) :
    lookupMacroInContext mfns s₁ c₁ name = Macro.lookupMacroInContext mfns s₂ c₂ name := by
  unfold Macro.lookupMacroInContext
  rw [hc.decl, h.newValue, h.macroNamespace]

/-- An overriding expression is in force ahead of what is in force without it. -/
theorem ScopesAgree.lookupMacroOverride
    (lookup : MacroDeclaration → Option MacroExpression) (decl : MacroDeclaration) :
    inForce mfns s₁.conditionParameterValues (s₁.table.lookupMacroOverride lookup decl)
      = inForce mfns s₂.conditionParameterValues (s₂.table.lookupMacroOverride lookup decl) := by
  unfold MacroValueAssignmentTable.lookupMacroOverride
  cases lookup decl with
  | none => exact h.chains decl
  | some override => simp only [inForce, MacroValueAssignment.applies, h.chains decl, if_true]

theorem ScopesAgree.searchedAssignments (decl : MacroDeclaration)
    (hc : ContextsAgree mfns s₁ s₂ c₁ c₂) :
    inForce mfns s₁.conditionParameterValues (Macro.searchedAssignments s₁ decl c₁)
      = inForce mfns s₂.conditionParameterValues (Macro.searchedAssignments s₂ decl c₂) := by
  induction hc with
  | root decl' v₁ v₂ lookup hv =>
    unfold Macro.searchedAssignments
    split
    · exact hv
    · exact h.lookupMacroOverride lookup decl
  | nested decl' v₁ v₂ hv _ ih =>
    unfold Macro.searchedAssignments
    split
    · exact hv
    · exact ih

end

/-- Chains with the same expressions in force start with the same expression, and if that is no literal they go on with
the same expressions. -/
theorem firstMatching_agree {p₁ p₂ : ConditionParameterValues} {l₁ l₂ : List MacroValueAssignment}
    (h : inForce mfns p₁ l₁ = inForce mfns p₂ l₂) :
    (firstMatchingCondition mfns p₁ l₁ = [] ∧ firstMatchingCondition mfns p₂ l₂ = []) ∨
      ∃ v₁ n₁ v₂ n₂, firstMatchingCondition mfns p₁ l₁ = v₁ :: n₁ ∧ firstMatchingCondition mfns p₂ l₂ = v₂ :: n₂ ∧
        v₁.expression = v₂.expression ∧
        (v₁.expression.isLiteral = true ∨ inForce mfns p₁ n₁ = inForce mfns p₂ n₂) := by
  rw [inForce_eq, inForce_eq] at h
  cases h₁ : firstMatchingCondition mfns p₁ l₁ with
  | nil =>
    cases h₂ : firstMatchingCondition mfns p₂ l₂ with
    | nil => exact .inl ⟨rfl, rfl⟩
    | cons v₂ n₂ =>
      rw [h₁, h₂] at h
      cases h
  | cons v₁ n₁ =>
    cases h₂ : firstMatchingCondition mfns p₂ l₂ with
    | nil =>
      rw [h₁, h₂] at h
      cases h
    | cons v₂ n₂ =>
      rw [h₁, h₂] at h
      injection h with hexpr hnext
      refine .inr ⟨v₁, n₁, v₂, n₂, rfl, rfl, hexpr, ?_⟩
      by_cases hliteral : v₁.expression.isLiteral = true
      · exact .inl hliteral
      · rw [if_neg hliteral, if_neg (hexpr ▸ hliteral)] at hnext
        exact .inr hnext

/-- A literal is evaluated without looking anything up. -/
theorem executeInContext_literal (fns : StringFunctions) (debug : Bool) {program : MacroEvaluationProgram}
    (hliteral : program.isLiteral = true) (fuel : Nat) (c₁ c₂ : MacroEvaluationContext) (always : Bool)
    (rb : MacroEvaluationResultBuilder) :
    executeInContext fns mfns s₁ debug fuel c₁ program always rb
      = executeInContext fns mfns s₂ debug fuel c₂ program always rb := by
  cases fuel with
  | zero => rfl
  | succ fuel =>
    cases program with
    | empty => rfl
    | literal s => rfl
    | instructions is => cases hliteral

theorem ScopesAgree.executeInContext (h : ScopesAgree mfns s₁ s₂) (fns : StringFunctions) (debug : Bool) (fuel : Nat)
    (hc : ContextsAgree mfns s₁ s₂ c₁ c₂) (program : MacroEvaluationProgram) (always : Bool)
    (rb : MacroEvaluationResultBuilder) :
    Macro.executeInContext fns mfns s₁ debug fuel c₁ program always rb
      = Macro.executeInContext fns mfns s₂ debug fuel c₂ program always rb := by
  induction fuel generalizing c₁ c₂ program always rb with
  | zero => rfl
  | succ fuel ih =>
    apply executeProgram_agree
    intro name
    unfold resolveInContext nextValueForMacro
    rw [h.lookupMacroInContext hc]
    cases Macro.lookupMacroInContext mfns s₂ c₂ name with
    | none => exact .unknownMacro
    | some decl =>
      dsimp only
      rcases firstMatching_agree (h.searchedAssignments decl hc) with ⟨h₁, h₂⟩ | ⟨v₁, n₁, v₂, n₂, h₁, h₂, hexpr, hnext⟩
      · rw [h₁, h₂]
        exact .noValue decl.type
      · rw [h₁, h₂]
        apply ResolutionsAgree.value
        funext asString b
        dsimp only
        rw [← hexpr]
        rcases hnext with hliteral | hnext
        · exact executeInContext_literal fns debug hliteral fuel _ _ asString b
        · exact ih (.nested decl (v₁ :: n₁) (v₂ :: n₂) hnext hc) _ asString b

end Scopes

/-! ## The evaluation functions -/

/-- Every evaluation function gives the same in both scopes. -/
structure SameEvaluation (mfns : MatchFunctions) (s₁ s₂ : MacroEvaluationScope) : Prop where
  stringExpression : ∀ fns debug lookup fuel expr,
    evaluateStringExpression fns mfns s₁ debug lookup fuel expr
      = evaluateStringExpression fns mfns s₂ debug lookup fuel expr
  stringListExpression : ∀ fns debug lookup fuel expr,
    evaluateStringListExpression fns mfns s₁ debug lookup fuel expr
      = evaluateStringListExpression fns mfns s₂ debug lookup fuel expr
  asString : ∀ fns debug lookup fuel decl,
    evaluateAsString fns mfns s₁ debug lookup fuel decl = evaluateAsString fns mfns s₂ debug lookup fuel decl
  stringList : ∀ fns debug lookup fuel decl,
    evaluateStringList fns mfns s₁ debug lookup fuel decl = evaluateStringList fns mfns s₂ debug lookup fuel decl
  pathList : ∀ fns debug lookup fuel decl,
    evaluatePathList fns mfns s₁ debug lookup fuel decl = evaluatePathList fns mfns s₂ debug lookup fuel decl

section Evaluation

variable {mfns : MatchFunctions} {s₁ s₂ : MacroEvaluationScope}

section

variable (h : ScopesAgree mfns s₁ s₂)
include h

theorem ScopesAgree.root_none (fns : StringFunctions) (debug : Bool)
    (lookup : MacroDeclaration → Option MacroExpression) (fuel : Nat) (program : MacroEvaluationProgram) (always : Bool) :
    Macro.executeInContext fns mfns s₁ debug fuel (.root none [] lookup) program always {}
      = Macro.executeInContext fns mfns s₂ debug fuel (.root none [] lookup) program always {} :=
  h.executeInContext fns debug fuel (.root none [] [] lookup rfl) program always {}

/-- The first assignment of a macro that applies, evaluated. -/
theorem ScopesAgree.root_some (fns : StringFunctions) (debug : Bool)
    (lookup : MacroDeclaration → Option MacroExpression) (fuel : Nat) (decl : MacroDeclaration)
    {v₁ v₂ : MacroValueAssignment} {n₁ n₂ : List MacroValueAssignment} (hexpr : v₁.expression = v₂.expression)
    (hnext : v₁.expression.isLiteral = true ∨
      inForce mfns s₁.conditionParameterValues n₁ = inForce mfns s₂.conditionParameterValues n₂)
    (always : Bool) :
    Macro.executeInContext fns mfns s₁ debug fuel (.root (some decl) (v₁ :: n₁) lookup) v₁.expression.evalProgram
        always {}
      = Macro.executeInContext fns mfns s₂ debug fuel (.root (some decl) (v₂ :: n₂) lookup) v₂.expression.evalProgram
        always {} := by
  rw [← hexpr]
  rcases hnext with hliteral | hnext
  · exact executeInContext_literal fns debug hliteral fuel _ _ always {}
  · exact h.executeInContext fns debug fuel (.root (some decl) (v₁ :: n₁) (v₂ :: n₂) lookup hnext) _ always {}

theorem ScopesAgree.sameStringList (fns : StringFunctions) (debug : Bool)
    (lookup : MacroDeclaration → Option MacroExpression) (fuel : Nat) (decl : MacroDeclaration) :
    evaluateStringList fns mfns s₁ debug lookup fuel decl = evaluateStringList fns mfns s₂ debug lookup fuel decl := by
  unfold evaluateStringList
  rcases firstMatching_agree (h.lookupMacroOverride lookup decl) with ⟨h₁, h₂⟩ | ⟨v₁, n₁, v₂, n₂, h₁, h₂, hexpr, hnext⟩
  · rw [h₁, h₂]
  · rw [h₁, h₂]
    dsimp only
    rw [h.root_some fns debug lookup fuel decl hexpr hnext]

theorem ScopesAgree.sameEvaluation : SameEvaluation mfns s₁ s₂ where
  stringExpression fns debug lookup fuel expr := by
    unfold evaluateStringExpression
    rw [h.root_none]
  stringListExpression fns debug lookup fuel expr := by
    unfold evaluateStringListExpression
    rw [h.root_none]
  asString fns debug lookup fuel decl := by
    unfold evaluateAsString
    rcases firstMatching_agree (h.lookupMacroOverride lookup decl) with
      ⟨h₁, h₂⟩ | ⟨v₁, n₁, v₂, n₂, h₁, h₂, hexpr, hnext⟩
    · rw [h₁, h₂]
    · rw [h₁, h₂]
      dsimp only
      rw [h.root_some fns debug lookup fuel decl hexpr hnext, hexpr]
  stringList fns debug lookup fuel decl := h.sameStringList fns debug lookup fuel decl
  pathList fns debug lookup fuel decl := by
    unfold evaluatePathList
    rw [h.sameStringList]

end

end Evaluation

end Builra.Macro
