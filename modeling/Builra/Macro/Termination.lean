import Builra.Macro.Balance
import Builra.Macro.Scope
import Mathlib.Algebra.Order.BigOperators.Group.Finset

namespace Builra.Macro

open List

/-!
# `Macro.Termination` — evaluation through a scope finishes

There is no visited set and no depth limit. Each nested evaluation of a macro moves down the list of
assignments that this macro has left in its context, and leaves the lists of all other macros as they are; only
finitely many macros can be looked up. So the assignments left over all of them, `assignmentsLeft`, bound the
depth of nested evaluations, and `evaluation_finishes` gives one bound for every way to evaluate.
-/

/-- Macros already under evaluation in a context. -/
def MacroEvaluationContext.underEvaluation : MacroEvaluationContext → List MacroDeclaration
  | .root decl _ _ => decl.toList
  | .nested decl _ parent => decl :: parent.underEvaluation

section Measure

variable (mfns : MatchFunctions) (scope : MacroEvaluationScope)

variable (context : MacroEvaluationContext)

/-- The macros that a lookup in a context can find. -/
def reachableMacros : Finset MacroDeclaration :=
  (newValueDeclaration scope :: scope.table.macroNamespace.declarations ++ context.underEvaluation).toFinset

/-- The number of assignments that are left in a context, over all macros. -/
def assignmentsLeft : Nat :=
  ∑ decl ∈ reachableMacros scope context, (searchedAssignments scope decl context).length

variable {decl : MacroDeclaration} {name : Text} {context : MacroEvaluationContext}

theorem lookupMacroDeclaration_mem {ns : MacroNamespace} (h : ns.lookupMacroDeclaration mfns name = some decl) :
    decl ∈ ns.declarations := by
  induction ns with
  | root registry => exact mem_of_find?_eq_some h
  | child registry parent ih =>
    unfold MacroNamespace.lookupMacroDeclaration at h
    unfold MacroNamespace.declarations
    split at h
    · rename_i d hd
      cases h
      exact mem_append_left _ (mem_of_find?_eq_some hd)
    · exact mem_append_right _ (ih h)

theorem mem_reachableMacros :
    decl ∈ reachableMacros scope context ↔ decl = newValueDeclaration scope
      ∨ decl ∈ scope.table.macroNamespace.declarations ∨ decl ∈ context.underEvaluation := by
  simp [reachableMacros]

theorem decl_mem_underEvaluation (h : context.decl = some decl) : decl ∈ context.underEvaluation := by
  cases context with
  | root d value lookup =>
    unfold MacroEvaluationContext.decl at h
    simp [MacroEvaluationContext.underEvaluation, h]
  | nested d value parent =>
    cases h
    simp [MacroEvaluationContext.underEvaluation]

/-- A lookup only finds macros of the finite set. -/
theorem lookupMacroInContext_mem (h : lookupMacroInContext mfns scope context name = some decl) :
    decl ∈ reachableMacros scope context := by
  rw [mem_reachableMacros]
  unfold lookupMacroInContext at h
  split at h
  · cases h
  · split at h
    · split at h
      · rename_i inherited hctx
        cases h
        exact .inr (.inr (decl_mem_underEvaluation hctx))
      · split at h
        · cases hlookup : scope.table.macroNamespace.lookupMacroDeclaration mfns name with
          | none =>
            rw [hlookup] at h
            exact .inl (Option.some.inj h).symm
          | some d =>
            rw [hlookup] at h
            cases h
            exact .inr (.inl (lookupMacroDeclaration_mem mfns hlookup))
        · cases h
    · exact .inr (.inl (lookupMacroDeclaration_mem mfns h))

theorem reachableMacros_nested (value : List MacroValueAssignment) (h : decl ∈ reachableMacros scope context) :
    reachableMacros scope (.nested decl value context) = reachableMacros scope context := by
  ext e
  rw [mem_reachableMacros, mem_reachableMacros, MacroEvaluationContext.underEvaluation, mem_cons]
  constructor
  · rintro (he | he | rfl | he)
    · exact .inl he
    · exact .inr (.inl he)
    · exact (mem_reachableMacros scope).mp h
    · exact .inr (.inr he)
  · rintro (he | he | he)
    · exact .inl he
    · exact .inr (.inl he)
    · exact .inr (.inr (.inr he))

theorem searchedAssignments_nested (decl decl' : MacroDeclaration) (value : List MacroValueAssignment)
    (parent : MacroEvaluationContext) : searchedAssignments scope decl (.nested decl' value parent)
      = if decl = decl' then value.tail else searchedAssignments scope decl parent := by
  rfl

/-- **A nested evaluation has fewer assignments left.** -/
theorem assignmentsLeft_nested {value : MacroValueAssignment} {next : List MacroValueAssignment}
    (hdecl : decl ∈ reachableMacros scope context)
    (hvalue : nextValueForMacro mfns scope context decl = value :: next) :
    assignmentsLeft scope (.nested decl (value :: next) context) < assignmentsLeft scope context := by
  unfold assignmentsLeft
  rw [reachableMacros_nested scope _ hdecl]
  have hsuffix : (value :: next).length ≤ (searchedAssignments scope decl context).length := by
    rw [← hvalue]
    exact (dropWhile_suffix _).length_le
  refine Finset.sum_lt_sum ?_ ⟨decl, hdecl, ?_⟩
  · intro e _
    rw [searchedAssignments_nested]
    split
    · rename_i he
      subst he
      exact (Nat.le_succ _).trans hsuffix
    · exact le_refl _
  · rw [searchedAssignments_nested, if_pos rfl]
    exact hsuffix

theorem assignmentsLeft_resolved {v : MacroEvaluationContext × MacroExpression}
    (h : resolveInContext mfns scope context name = .value v) :
    assignmentsLeft scope v.1 < assignmentsLeft scope context := by
  unfold resolveInContext at h
  split at h
  · cases h
  · rename_i decl hdecl
    split at h
    · cases h
    · rename_i value next hvalue
      cases h
      exact assignmentsLeft_nested mfns scope (lookupMacroInContext_mem mfns scope hdecl) hvalue

end Measure

/-! ## Compiled programs -/

/-- No instruction of a literal list touches the stack. -/
theorem effects_literalListInstructions (strings : List Text) (needsListSeparator : Bool) :
    effects (literalListInstructions needsListSeparator strings) 0 = some 0 := by
  induction strings generalizing needsListSeparator with
  | nil => rfl
  | cons str strings ih => cases needsListSeparator <;> exact ih true

/-- The replacement operators of the text are known, whichever way it is parsed. -/
def MacroExpression.HasKnownOperators (expr : MacroExpression) : Prop :=
  ∀ asList, Known (replacementOperators asList expr.stringRep)

/-- Every way to make an expression gives instructions that always find the buffers they need, and that leave none if
the operators are known. -/
theorem Compiles.effects {stringRep : Text} {program : MacroEvaluationProgram} (h : Compiles stringRep program) :
    ∃ instructions height, program = .ofInstructions instructions ∧ effects instructions 0 = some height
      ∧ ((∀ asList, Known (replacementOperators asList stringRep)) → height = 0) := by
  cases h with
  | parseLiteralString => exact ⟨_, 0, rfl, rfl, fun _ => rfl⟩
  | parseLiteralStringList strings =>
    refine ⟨_, 0, rfl, ?_, fun _ => rfl⟩
    exact effects_literalListInstructions strings false
  | @parseString rest calls parsed =>
    obtain ⟨calls', hparse, hraises, hnames⟩ := parseAsString_spec stringRep _ (le_refl _)
    rw [parsed] at hparse
    cases hparse
    refine ⟨_, _, rfl, hraises {} 0 (le_refl 0), fun hknown => ?_⟩
    rw [unknownCount_eq_zero.mpr (hnames ▸ hknown false)]
  | @parseStringList rest calls parsed =>
    obtain ⟨calls', hparse, hraises, hnames⟩ := parseAsStringList_spec stringRep _ (le_refl _)
    rw [parsed] at hparse
    cases hparse
    refine ⟨_, _, rfl, hraises {} 0 (le_refl 0), fun hknown => ?_⟩
    rw [unknownCount_eq_zero.mpr (hnames ▸ hknown true)]

/-! ## Evaluation -/

section Evaluation

variable (fns : StringFunctions) (mfns : MatchFunctions) (scope : MacroEvaluationScope) (debug : Bool)

/-- So are those of every assignment that can be looked up from the context. -/
def MacroEvaluationContext.HasKnownOperators (context : MacroEvaluationContext) : Prop :=
  ∀ decl, ∀ assignment ∈ searchedAssignments scope decl context, assignment.expression.HasKnownOperators

variable {scope} in
theorem hasKnownOperators_resolved {context : MacroEvaluationContext} {name : Text}
    {v : MacroEvaluationContext × MacroExpression} (h : resolveInContext mfns scope context name = .value v)
    (hknown : context.HasKnownOperators scope) : v.2.HasKnownOperators ∧ v.1.HasKnownOperators scope := by
  unfold resolveInContext at h
  split at h
  · cases h
  · rename_i decl hdecl
    split at h
    · cases h
    · rename_i value next hvalue
      cases h
      have hsuffix : value :: next <:+ searchedAssignments scope decl context := hvalue ▸ dropWhile_suffix _
      refine ⟨hknown decl value (hsuffix.subset mem_cons_self), fun decl' assignment hmem => ?_⟩
      rw [searchedAssignments_nested] at hmem
      split at hmem
      · exact hknown decl assignment (hsuffix.subset (mem_cons_of_mem _ hmem))
      · exact hknown decl' assignment hmem

/-- With more fuel than assignments left, the evaluation of an expression returns, in a debug build if all operators
are known. -/
theorem executeInContext_returns (fuel : Nat) (context : MacroEvaluationContext) (expr : MacroExpression)
    (always : Bool) (rb : MacroEvaluationResultBuilder) (hfuel : assignmentsLeft scope context < fuel)
    (hknown : debug = true → expr.HasKnownOperators ∧ context.HasKnownOperators scope) :
    ∃ b, executeInContext fns mfns scope debug fuel context expr.evalProgram always rb = .ok b := by
  induction fuel generalizing context expr always rb with
  | zero => omega
  | succ fuel ih =>
    obtain ⟨instructions, height, hprogram, heffects, hheight⟩ := expr.compiles.effects
    have hev : Returning (resolveInContext mfns scope context)
        (fun value asString b => executeInContext fns mfns scope debug fuel value.1 value.2.evalProgram asString b) := by
      intro name v hv asString b
      have hless := assignmentsLeft_resolved mfns scope hv
      exact ih v.1 v.2 asString b (by omega) fun hdebug => hasKnownOperators_resolved mfns hv (hknown hdebug).2
    obtain ⟨m, hrun, hlength⟩ := runInstructions_effects fns always hev instructions ⟨[], rb⟩ heffects
    refine ⟨m.resultBuilder, ?_⟩
    rw [executeInContext, hprogram, executeProgram_ofInstructions, hrun]
    show m.finish debug = .ok m.resultBuilder
    cases debug with
    | false => rfl
    | true =>
      rw [hheight (hknown rfl).1, length_eq_zero_iff] at hlength
      rw [Machine.finish, hlength]
      rfl

/-- An evaluator that differs from another one only where it stops at the assertion. -/
theorem runInstructions_asserts {β : Type} {resolve : Text → Resolution β}
    {evaluate evaluate' : β → Bool → MacroEvaluationResultBuilder → Except Halt MacroEvaluationResultBuilder}
    (h : ∀ v asString b, evaluate v asString b = .error .assertionFailed
      ∨ evaluate v asString b = evaluate' v asString b) (always : Bool) (is : List EvalInstr) (m : Machine) :
    runInstructions fns resolve evaluate always is m = .error .assertionFailed
      ∨ runInstructions fns resolve evaluate always is m = runInstructions fns resolve evaluate' always is m := by
  induction is generalizing m with
  | nil => exact .inr rfl
  | cons i is ih =>
    have hstep : executeInstruction fns resolve evaluate always m i = .error .assertionFailed
        ∨ executeInstruction fns resolve evaluate always m i = executeInstruction fns resolve evaluate' always m i := by
      cases i with
      | evalNamedMacro asString preserves =>
        obtain ⟨stack, rb⟩ := m
        match stack with
        | [] => exact .inr rfl
        | nb :: rest =>
          simp only [executeInstruction]
          cases resolve nb.buildString with
          | noValue type => exact .inr rfl
          | unknownMacro => exact .inr rfl
          | value v =>
            cases rest with
            | nil => exact .inr rfl
            | cons top below =>
              rcases h v (asString || always) top with heq | heq
              · exact .inl (by simp only [heq]; rfl)
              · exact .inr (by simp only [heq])
      | _ => exact .inr rfl
    rw [runInstructions_cons, runInstructions_cons]
    rcases hstep with heq | heq
    · exact .inl (by rw [heq]; rfl)
    · rw [heq]
      cases executeInstruction fns resolve evaluate' always m i with
      | error halt => exact .inr rfl
      | ok m' => exact ih m'

/-- **A debug build does the same, or stops at the assertion.** -/
theorem executeInContext_asserts (fuel : Nat) (context : MacroEvaluationContext) (program : MacroEvaluationProgram)
    (always : Bool) (rb : MacroEvaluationResultBuilder) :
    executeInContext fns mfns scope debug fuel context program always rb = .error .assertionFailed
      ∨ executeInContext fns mfns scope debug fuel context program always rb
        = executeInContext fns mfns scope false fuel context program always rb := by
  induction fuel generalizing context program always rb with
  | zero => exact .inr rfl
  | succ fuel ih =>
    cases program with
    | empty | literal s => exact .inr rfl
    | instructions is =>
      rw [executeInContext, executeInContext, executeProgram, executeProgram]
      have hev := fun (v : MacroEvaluationContext × MacroExpression) asString b => ih v.1 v.2.evalProgram asString b
      rcases runInstructions_asserts fns hev always is ⟨[], rb⟩ with heq | heq
      · exact .inl (by rw [heq]; rfl)
      · rw [heq]
        cases runInstructions fns _ _ always is ⟨[], rb⟩ with
        | error halt => exact .inr rfl
        | ok m =>
          show m.finish debug = _ ∨ m.finish debug = m.finish false
          unfold Machine.finish
          split
          · exact .inl rfl
          · exact .inr rfl

/-- More fuel makes no difference. -/
theorem executeInContext_stable (fuel fuel' : Nat) (context : MacroEvaluationContext)
    (hfuel : assignmentsLeft scope context < fuel) (hfuel' : assignmentsLeft scope context < fuel') :
    executeInContext fns mfns scope debug fuel context = executeInContext fns mfns scope debug fuel' context := by
  induction fuel generalizing fuel' context with
  | zero => omega
  | succ fuel ih =>
    obtain ⟨fuel', rfl⟩ : ∃ n, fuel' = n + 1 := ⟨fuel' - 1, by omega⟩
    funext program always rb
    rw [executeInContext, executeInContext]
    apply executeProgram_congr
    intro name v hv
    have hless := assignmentsLeft_resolved mfns scope hv
    funext asString b
    rw [ih fuel' v.1 (by omega) (by omega)]

/-- A computation with bounded depth comes to one end from some depth on: it returns, or a debug build stops at the
assertion that no subresult is left, which takes an unknown operator. -/
def Finishes {α : Type} (debug : Bool) (known : Prop) (run : Nat → Except Halt α) : Prop :=
  ∃ r bound, (∀ fuel, bound ≤ fuel → run fuel = r) ∧
    ((∃ a, r = .ok a) ∨ r = .error .assertionFailed ∧ debug = true ∧ ¬known)

theorem finishes_ok {α : Type} {debug : Bool} {known : Prop} (a : α) : Finishes debug known fun _ => .ok a :=
  ⟨.ok a, 0, fun _ _ => rfl, .inl ⟨a, rfl⟩⟩

theorem Finishes.bind {α β : Type} {debug : Bool} {known : Prop} {run : Nat → Except Halt α}
    (h : Finishes debug known run) (f : α → β) :
    Finishes debug known fun fuel => do
      let a ← run fuel
      return f a := by
  obtain ⟨r, bound, hr, hend⟩ := h
  refine ⟨r >>= fun a => .ok (f a), bound, fun fuel hfuel => ?_, ?_⟩
  · dsimp only
    rw [hr fuel hfuel]
    rfl
  · rcases hend with ⟨a, rfl⟩ | ⟨rfl, hunknown⟩
    · exact .inl ⟨f a, rfl⟩
    · exact .inr ⟨rfl, hunknown⟩

theorem executeInContext_finishes (context : MacroEvaluationContext) (expr : MacroExpression) (always : Bool)
    (rb : MacroEvaluationResultBuilder) :
    Finishes debug (expr.HasKnownOperators ∧ context.HasKnownOperators scope) fun fuel =>
      executeInContext fns mfns scope debug fuel context expr.evalProgram always rb := by
  have hless := Nat.lt_succ_self (assignmentsLeft scope context)
  refine ⟨executeInContext fns mfns scope debug (assignmentsLeft scope context + 1) context expr.evalProgram always rb,
    assignmentsLeft scope context + 1, fun fuel hfuel => ?_, ?_⟩
  · exact congrFun (congrFun (congrFun (executeInContext_stable fns mfns scope debug fuel _ context hfuel hless) _) _) _
  · by_cases hknown : debug = true → expr.HasKnownOperators ∧ context.HasKnownOperators scope
    · exact .inl (executeInContext_returns fns mfns scope debug _ context expr always rb hless hknown)
    · rcases executeInContext_asserts fns mfns scope debug _ context expr.evalProgram always rb with heq | heq
      · exact .inr ⟨heq, Classical.not_imp.mp hknown⟩
      · rw [heq]
        exact .inl (executeInContext_returns fns mfns scope false _ context expr always rb hless nofun)

variable (lookup : MacroDeclaration → Option MacroExpression)

/-- The operators of all assignments that the scope looks up are known. -/
def LooksUpKnownOperators : Prop :=
  ∀ decl, ∀ assignment ∈ scope.table.lookupMacroOverride lookup decl, assignment.expression.HasKnownOperators

variable {scope lookup} in
theorem LooksUpKnownOperators.root_none (h : LooksUpKnownOperators scope lookup) :
    (MacroEvaluationContext.root none [] lookup).HasKnownOperators scope := by
  intro decl assignment hmem
  rw [searchedAssignments, if_neg (by simp)] at hmem
  exact h decl assignment hmem

variable {mfns scope lookup} in
theorem LooksUpKnownOperators.root_some (h : LooksUpKnownOperators scope lookup) {decl : MacroDeclaration}
    {value : MacroValueAssignment} {next : List MacroValueAssignment}
    (hvalue : firstMatchingCondition mfns scope.conditionParameterValues (scope.table.lookupMacroOverride lookup decl)
      = value :: next) :
    value.expression.HasKnownOperators
      ∧ (MacroEvaluationContext.root (some decl) (value :: next) lookup).HasKnownOperators scope := by
  have hsuffix : value :: next <:+ scope.table.lookupMacroOverride lookup decl := hvalue ▸ dropWhile_suffix _
  refine ⟨h decl value (hsuffix.subset mem_cons_self), fun decl' assignment hmem => ?_⟩
  rw [searchedAssignments] at hmem
  split at hmem
  · exact h decl assignment (hsuffix.subset (mem_cons_of_mem _ hmem))
  · exact h decl' assignment hmem

theorem Finishes.mono {α : Type} {debug : Bool} {known known' : Prop} {run : Nat → Except Halt α}
    (h : Finishes debug known run) (himp : known' → known) : Finishes debug known' run := by
  obtain ⟨r, bound, hr, hend⟩ := h
  exact ⟨r, bound, hr, hend.imp_right fun hstop => ⟨hstop.1, hstop.2.1, mt himp hstop.2.2⟩⟩

theorem evaluateStringList_finishes (decl : MacroDeclaration) :
    Finishes debug (LooksUpKnownOperators scope lookup) fun fuel =>
      evaluateStringList fns mfns scope debug lookup fuel decl := by
  unfold evaluateStringList
  split
  · exact finishes_ok []
  · rename_i hvalue
    exact ((executeInContext_finishes fns mfns scope debug _ _ false {}).bind _).mono fun h => h.root_some hvalue

end Evaluation

end Builra.Macro
