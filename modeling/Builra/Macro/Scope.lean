import Builra.Macro.Parser

namespace Builra.Macro

/-!
# `Macro.Scope` — macro declarations, value assignment tables and evaluation through a scope

A table maps each macro to a linked list of assignments, the one of highest precedence first, each with an
optional set of conditions. `MacroEvaluationContext` is the chain of nested evaluations: looking up a macro
that is already being evaluated continues after the assignment under evaluation. `executeInContext` ties the
machine of `Macro.Program` to these contexts; its fuel bounds the depth of nested evaluations.
-/

/-! ## Declarations -/

/-- A macro declaration. Declarations are compared by object identity. -/
structure MacroDeclaration where
  identity : Nat
  name : Text
  type : MacroType
  name_ne_nil : name ≠ []
deriving DecidableEq

/-- The functions of the library that lookups use: string equality and `fnmatch`, where an error is no match. -/
structure MatchFunctions where
  sameString : Text → Text → Bool
  fnmatch : Text → Text → Bool
  /-- `Path.normalize`. -/
  normalize : Text → Text

/-- A namespace: its registry of declarations and its parent. -/
inductive MacroNamespace where
  | root (macroRegistry : List MacroDeclaration)
  | child (macroRegistry : List MacroDeclaration) (parentNamespace : MacroNamespace)

namespace MacroNamespace

/-- All declarations visible in a namespace. -/
def declarations : MacroNamespace → List MacroDeclaration
  | root macroRegistry => macroRegistry
  | child macroRegistry parentNamespace => macroRegistry ++ parentNamespace.declarations

def lookupMacroDeclaration (fns : MatchFunctions) (name : Text) : MacroNamespace → Option MacroDeclaration
  | root macroRegistry => macroRegistry.find? fun decl => fns.sameString decl.name name
  | child macroRegistry parentNamespace =>
    match macroRegistry.find? fun decl => fns.sameString decl.name name with
    | some decl => some decl
    | none => parentNamespace.lookupMacroDeclaration fns name

end MacroNamespace

/-! ## Expressions -/

/-- The instructions of `parseLiteralStringList`. -/
def literalListInstructions (needsListSeparator : Bool) : List Text → List EvalInstr
  | [] => []
  | str :: strings =>
    (if needsListSeparator then [.setNeedsListSeparator (text " ")] else [])
      ++ .appendLiteral str :: literalListInstructions true strings

/-- How `MacroNamespace` makes the program of an expression from its string representation. -/
inductive Compiles : Text → MacroEvaluationProgram → Prop where
  | parseLiteralString (string : Text) :
    Compiles string (.ofInstructions [.appendLiteral string])
  | parseLiteralStringList (stringRep : Text) (strings : List Text) :
    Compiles stringRep (.ofInstructions (literalListInstructions false strings))
  | parseString {string rest calls}
    (parsed : parseAsString string (enoughFuel string) = .ok (calls, rest)) :
    Compiles string (.ofInstructions (emit {} calls))
  | parseStringList {string rest calls}
    (parsed : parseAsStringList string (enoughFuel string) = .ok (calls, rest)) :
    Compiles string (.ofInstructions (emit {} calls))

/-- `MacroExpression`. Expressions are only made by parsing. -/
structure MacroExpression where
  stringRep : Text
  evalProgram : MacroEvaluationProgram
  compiles : Compiles stringRep evalProgram

def parseLiteralString (string : Text) : MacroExpression :=
  ⟨string, _, .parseLiteralString string⟩

variable (stringRep : Text)

/-- `parseLiteralStringList`; the string representation is the quoted form of the strings. -/
def parseLiteralStringList (strings : List Text) : MacroExpression :=
  ⟨stringRep, _, .parseLiteralStringList stringRep strings⟩

/-- `parseString`, with its fast path for strings that are guaranteed to be literal. -/
def parseString : Except Violation MacroExpression :=
  if ascii '$' ∈ stringRep then
    match parsed : parseAsString stringRep (enoughFuel stringRep) with
    | .ok (_, _) => .ok ⟨stringRep, _, .parseString parsed⟩
    | .error violation => .error violation
  else .ok (parseLiteralString stringRep)

def parseStringList : Except Violation MacroExpression :=
  match parsed : parseAsStringList stringRep (enoughFuel stringRep) with
  | .ok (_, _) => .ok ⟨stringRep, _, .parseStringList parsed⟩
  | .error violation => .error violation

/-! ## Conditions and assignments -/

structure MacroConditionParameter where
  identity : Nat
  name : Text
deriving DecidableEq

structure MacroCondition where
  parameter : MacroConditionParameter
  valuePattern : Text
deriving DecidableEq

/-- The values of condition parameters; none for a parameter without values. -/
abbrev ConditionParameterValues := MacroConditionParameter → Option (List Text)

def MacroCondition.evaluate (fns : MatchFunctions) (paramValues : ConditionParameterValues)
    (condition : MacroCondition) : Bool :=
  match paramValues condition.parameter with
  | none => condition.valuePattern = text "*"
  | some [] => condition.valuePattern = text "*"
  | some values => values.any fun value => fns.fnmatch condition.valuePattern value

/-- A node of the linked list of assignments of a macro. A list of nodes, empty for nothing, is an assignment
with its `next` chain. -/
structure MacroValueAssignment where
  expression : MacroExpression
  conditions : Option (List MacroCondition)

/-- The assignments from the first one on whose conditions match. -/
def firstMatchingCondition (fns : MatchFunctions) (paramValues : ConditionParameterValues)
    (assignments : List MacroValueAssignment) : List MacroValueAssignment :=
  assignments.dropWhile fun v =>
    match v.conditions with
    | none => false
    | some conditions => !conditions.all (MacroCondition.evaluate fns paramValues)

/-- `MacroValueAssignmentTable`. -/
structure MacroValueAssignmentTable where
  macroNamespace : MacroNamespace
  valueAssignments : List (MacroDeclaration × List MacroValueAssignment)

namespace MacroValueAssignmentTable

variable (table : MacroValueAssignmentTable)

def lookupMacro (decl : MacroDeclaration) : List MacroValueAssignment :=
  ((table.valueAssignments.find? fun entry => entry.1 = decl).map Prod.snd).getD []

/-- `push`: the new assignment goes ahead of the existing ones. -/
def push (decl : MacroDeclaration) (value : MacroExpression)
    (conditions : Option (List MacroCondition)) : MacroValueAssignmentTable :=
  { table with
    valueAssignments := (decl, ⟨value, conditions⟩ :: table.lookupMacro decl)
      :: table.valueAssignments.filter fun entry => entry.1 ≠ decl }

/-- `lookupMacro(_:overrideLookup:)`: an overriding expression goes ahead of all assignments. -/
def lookupMacroOverride (lookup : MacroDeclaration → Option MacroExpression)
    (decl : MacroDeclaration) : List MacroValueAssignment :=
  match lookup decl with
  | some override => ⟨override, none⟩ :: table.lookupMacro decl
  | none => table.lookupMacro decl

end MacroValueAssignmentTable

/-! ## Scopes and contexts -/

structure MacroEvaluationScope where
  table : MacroValueAssignmentTable
  conditionParameterValues : ConditionParameterValues

/-- The chain of evaluation contexts. `value` is the assignment under evaluation with its `next` chain. -/
inductive MacroEvaluationContext where
  | root (decl : Option MacroDeclaration) (value : List MacroValueAssignment)
    (lookup : MacroDeclaration → Option MacroExpression)
  | nested (decl : MacroDeclaration) (value : List MacroValueAssignment) (parent : MacroEvaluationContext)

def MacroEvaluationContext.decl : MacroEvaluationContext → Option MacroDeclaration
  | root decl _ _ => decl
  | nested decl _ _ => some decl

section Evaluation

variable (fns : StringFunctions) (mfns : MatchFunctions) (scope : MacroEvaluationScope) (debug : Bool)

/-- The declaration that `lookupOrDeclareMacro` creates for `value` is a new object. That it is registered can
be seen by no other lookup of the evaluation: only contexts without a macro look `value` up by its name. -/
def newValueDeclaration : MacroDeclaration where
  identity := ((scope.table.macroNamespace.declarations ++ scope.table.valueAssignments.map Prod.fst).map
    MacroDeclaration.identity).foldl max 0 + 1
  name := text "value"
  type := .string
  name_ne_nil := by decide

variable (context : MacroEvaluationContext)

def lookupMacroInContext (name : Text) : Option MacroDeclaration :=
  if name = [] then none
  else if name = text "inherited" ∨ name = text "value" then
    match context.decl with
    | some inherited => some inherited
    | none =>
      if name = text "value" then
        some ((scope.table.macroNamespace.lookupMacroDeclaration mfns name).getD (newValueDeclaration scope))
      else none
  else scope.table.macroNamespace.lookupMacroDeclaration mfns name

/-- The assignments among which `nextValueForMacro` searches. -/
def searchedAssignments (decl : MacroDeclaration) : MacroEvaluationContext → List MacroValueAssignment
  | .root decl' value lookup =>
    if some decl = decl' then value.tail else scope.table.lookupMacroOverride lookup decl
  | .nested decl' value parent => if decl = decl' then value.tail else searchedAssignments decl parent

def nextValueForMacro (decl : MacroDeclaration) :
    List MacroValueAssignment :=
  firstMatchingCondition mfns scope.conditionParameterValues (searchedAssignments scope decl context)

/-- What a name resolves to in a context: the context and the expression to evaluate in it. -/
def resolveInContext (name : Text) :
    Resolution (MacroEvaluationContext × MacroExpression) :=
  match lookupMacroInContext mfns scope context name with
  | none => .unknownMacro
  | some decl =>
    match nextValueForMacro mfns scope context decl with
    | [] => .noValue decl.type
    | value :: next => .value (.nested decl (value :: next) context, value.expression)

/-- `executeInContext`; at most `fuel` evaluations are nested, and a `debug` build checks the assertions. -/
def executeInContext : Nat → MacroEvaluationContext → MacroEvaluationProgram → Bool →
    MacroEvaluationResultBuilder → Except Halt MacroEvaluationResultBuilder
  | 0, _, _, _, _ => .error .outOfFuel
  | fuel + 1, context, program, alwaysEvalAsString, resultBuilder =>
    executeProgram fns (resolveInContext mfns scope context)
      (fun value asString b => executeInContext fuel value.1 value.2.evalProgram asString b)
      alwaysEvalAsString debug program resultBuilder

/-! ## The evaluation functions of a scope

The caches are left out: they hold what these functions compute. Boolean, string, path and enumeration macros
are evaluated as strings. -/

variable (lookup : MacroDeclaration → Option MacroExpression) (fuel : Nat)

/-- `evaluate(_ expr: MacroStringExpression)`. -/
def evaluateStringExpression (expr : MacroExpression) : Except Halt Text :=
  match expr.evalProgram.asLiteralString with
  | some literal => .ok literal
  | none => do
    let b ← executeInContext fns mfns scope debug fuel (.root none [] lookup) expr.evalProgram true {}
    return b.buildString

/-- `evaluate(_ expr: MacroStringListExpression)`. -/
def evaluateStringListExpression (expr : MacroExpression) : Except Halt (List Text) := do
  let b ← executeInContext fns mfns scope debug fuel (.root none [] lookup) expr.evalProgram false {}
  return b.buildStringList

variable (decl : MacroDeclaration)

/-- `evaluateAsString(_ macro:)`. -/
def evaluateAsString : Except Halt Text :=
  match firstMatchingCondition mfns scope.conditionParameterValues
      (scope.table.lookupMacroOverride lookup decl) with
  | [] => .ok []
  | value :: next =>
    match value.expression.evalProgram.asLiteralString with
    | some literal => .ok literal
    | none => do
      let b ← executeInContext fns mfns scope debug fuel (.root (some decl) (value :: next) lookup)
        value.expression.evalProgram true {}
      return b.buildString

/-- `evaluate(_ macro: StringListMacroDeclaration)`. -/
def evaluateStringList : Except Halt (List Text) :=
  match firstMatchingCondition mfns scope.conditionParameterValues
      (scope.table.lookupMacroOverride lookup decl) with
  | [] => .ok []
  | value :: next => do
    let b ← executeInContext fns mfns scope debug fuel (.root (some decl) (value :: next) lookup)
      value.expression.evalProgram false {}
    return b.buildStringList

/-- `evaluate(_ macro: PathListMacroDeclaration)`. -/
def evaluatePathList : Except Halt (List Text) := do
  let strings ← evaluateStringList fns mfns scope debug lookup fuel decl
  return strings.map mfns.normalize

end Evaluation

end Builra.Macro
