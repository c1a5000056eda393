import Builra.Macro.InForce

namespace Builra.Macro

open List

/-!
# `Macro.AssignmentTables` — pushing tables onto tables, and binding condition parameters

A table is a dictionary from macros to chains of assignments. A macro without assignments has an empty chain or
no entry; a lookup finds nothing either way.
-/

namespace MacroValueAssignment

def isUnconditionalLiteral (v : MacroValueAssignment) : Bool := v.expression.isLiteral && v.conditions.isNone

/-- `conditions?[parameter]`: the first condition on the parameter. -/
def conditionOn (parameter : MacroConditionParameter) (v : MacroValueAssignment) : Option MacroCondition :=
  v.conditions.bind fun conditions => conditions.find? fun condition => condition.parameter = parameter

end MacroValueAssignment

def containsUnconditionalLiteralInChain : List MacroValueAssignment → Bool
  | [] => false
  | v :: next => v.isUnconditionalLiteral || containsUnconditionalLiteralInChain next

/-- `insertCopiesOfMacroValueAssignmentNodes`. Nodes are values here, so that a node is shared or copied cannot be seen;
what can be seen is whether the destination follows. -/
def insertCopiesOfMacroValueAssignmentNodes :
    List MacroValueAssignment → List MacroValueAssignment → List MacroValueAssignment
  | [], dst => dst
  | src :: next, dst =>
    if dst.isEmpty then src :: next
    else if containsUnconditionalLiteralInChain (src :: next) then src :: next
    else src :: insertCopiesOfMacroValueAssignmentNodes next dst

/-- A value that a parameter is bound to. -/
inductive ConditionValue where
  | customCondition (matchesCondition : MacroCondition → Bool)
  | string (value : Text)

variable (fns : MatchFunctions)

def ConditionValue.evaluate : ConditionValue → MacroCondition → Bool
  | .customCondition matchesCondition, condition => matchesCondition condition
  | .string value, condition => fns.fnmatch condition.valuePattern value

variable (parameter : MacroConditionParameter)

/-- Whether an assignment is conditioned on the parameter with a condition that the value matches. -/
def MacroValueAssignment.matchesValue
    (value : ConditionValue) (v : MacroValueAssignment) : Bool :=
  match v.conditionOn parameter with
  | some condition => value.evaluate fns condition
  | none => false

variable (conditionValues : List ConditionValue)

variable (chain : List MacroValueAssignment)

def findEffectiveConditionValue
      : Option ConditionValue :=
  conditionValues.find? fun value => chain.any (MacroValueAssignment.matchesValue fns parameter value)

/-- What `bindAndPushAssignment` pushes for one assignment. -/
def bindAssignment (value : ConditionValue)
    (v : MacroValueAssignment) : Option MacroValueAssignment :=
  match v.conditions, v.conditionOn parameter with
  | some conditions, some condition =>
    if value.evaluate fns condition then
      let filteredConditions := conditions.filter fun c => c.parameter ≠ parameter
      some ⟨v.expression, if filteredConditions.isEmpty then none else some filteredConditions⟩
    else none
  | _, _ => some v

/-- The chain of a macro in the bound table. -/
def bindChain
     : List MacroValueAssignment :=
  match findEffectiveConditionValue fns parameter conditionValues chain with
  | none => chain
  | some value => chain.filterMap (bindAssignment fns parameter value)

namespace MacroValueAssignmentTable

/-- `valueAssignments[macro] = chain`. -/
def setAssignments (table : MacroValueAssignmentTable) (decl : MacroDeclaration) (chain : List MacroValueAssignment) :
    MacroValueAssignmentTable :=
  { table with
    valueAssignments := (decl, chain) :: table.valueAssignments.filter fun entry => entry.1 ≠ decl }

/-- The loop of `pushContentsOf`, by how a chain is put in front of another. -/
def pushWith (insert : List MacroValueAssignment → List MacroValueAssignment → List MacroValueAssignment)
    (table otherTable : MacroValueAssignmentTable) : MacroValueAssignmentTable :=
  otherTable.valueAssignments.foldl
    (fun table entry => table.setAssignments entry.1 (insert entry.2 (table.lookupMacro entry.1))) table

def pushContentsOf (table otherTable : MacroValueAssignmentTable) : MacroValueAssignmentTable :=
  table.pushWith insertCopiesOfMacroValueAssignmentNodes otherTable

def bindConditionParameter (fns : MatchFunctions) (table : MacroValueAssignmentTable)
    (parameter : MacroConditionParameter) (conditionValues : List ConditionValue) : MacroValueAssignmentTable :=
  { table with
    valueAssignments := table.valueAssignments.map fun entry =>
      (entry.1, bindChain fns parameter conditionValues entry.2) }

end MacroValueAssignmentTable

/-! ## Lookups -/

theorem bindChain_nil (fns : MatchFunctions) (parameter : MacroConditionParameter)
    (conditionValues : List ConditionValue) : bindChain fns parameter conditionValues [] = [] := by
  unfold bindChain
  split
  · rfl
  · rfl

theorem lookupMacro_bindConditionParameter (fns : MatchFunctions) (table : MacroValueAssignmentTable)
    (parameter : MacroConditionParameter) (conditionValues : List ConditionValue) (decl : MacroDeclaration) :
    (table.bindConditionParameter fns parameter conditionValues).lookupMacro decl
      = bindChain fns parameter conditionValues (table.lookupMacro decl) := by
  unfold MacroValueAssignmentTable.bindConditionParameter MacroValueAssignmentTable.lookupMacro
  induction table.valueAssignments with
  | nil => exact (bindChain_nil fns parameter conditionValues).symm
  | cons entry entries ih =>
    by_cases hdecl : entry.1 = decl
    · simp only [map_cons, find?_cons, hdecl, decide_true, Option.map_some, Option.getD_some]
    · simp only [map_cons, find?_cons, hdecl, decide_false]
      exact ih

/-- The chain of a macro is one of the table's, or empty. -/
theorem lookupMacro_mem {table : MacroValueAssignmentTable} {decl : MacroDeclaration}
    (h : table.lookupMacro decl ≠ []) : (decl, table.lookupMacro decl) ∈ table.valueAssignments := by
  unfold MacroValueAssignmentTable.lookupMacro at h ⊢
  cases hfind : table.valueAssignments.find? fun entry => entry.1 = decl with
  | none =>
    rw [hfind] at h
    exact absurd rfl h
  | some entry =>
    have hdecl : entry.1 = decl := by simpa using find?_some hfind
    rw [← hdecl]
    exact mem_of_find?_eq_some hfind

theorem newValueDeclaration_bindConditionParameter (fns : MatchFunctions) (table : MacroValueAssignmentTable)
    (parameter : MacroConditionParameter) (conditionValues : List ConditionValue) (p₁ p₂ : ConditionParameterValues) :
    newValueDeclaration ⟨table.bindConditionParameter fns parameter conditionValues, p₁⟩
      = newValueDeclaration ⟨table, p₂⟩ := by
  have hkeys : (table.bindConditionParameter fns parameter conditionValues).valueAssignments.map Prod.fst
      = table.valueAssignments.map Prod.fst := by
    unfold MacroValueAssignmentTable.bindConditionParameter
    rw [map_map]
    rfl
  unfold newValueDeclaration
  dsimp only
  rw [hkeys]
  rfl

end Builra.Macro
