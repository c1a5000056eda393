import Builra.Macro.TableSerialization

namespace Builra.Macro.Serialization

open Option Serialization.MacroValueAssignment

/-!
# `Macro.TableRoundTrip` — deserializing what was serialized

Every part of a scope is read back from what was written for it, with macros and condition parameters replaced
by what the namespace of the deserializer has under their names. An interned location is read back as it was
written, and means what the path table of the reading process has at its index. So source locations are kept
exactly when the two path tables agree on the indices in use.
-/

open TokenStream

variable {ns : DelegateNamespace}

/-! ## The calls of the deserializer -/

theorem reads_integer (value : Int) : Reads deserializeInteger ns [.integer value] value := .next _ rfl

theorem reads_uint (value : Nat) : Reads deserializeUInt ns [.uint value] value := .next _ rfl

theorem reads_boolean (value : Bool) : Reads deserializeBoolean ns [.boolean value] value := .next _ rfl

theorem reads_string (value : Text) : Reads deserializeString ns [.string value] value := .next _ rfl

theorem reads_nil : Reads deserializeNil ns [.nil] true := .skip _

theorem reads_beginAggregate (count : Nat) : Reads beginAggregate ns [.beginAggregate count] count := .next _ rfl

theorem reads_beginAggregateOf (count : Nat) : Reads (beginAggregateOf count) ns [.beginAggregate count] () := by
  apply (reads_beginAggregate count).cons
  rw [if_neg (not_not_intro rfl)]
  exact .pure ns ()

section Combinators

variable {α β : Type} {write : α → List Item} {read : Deserializer β} {f : α → β}

theorem reads_array {array : List α} (h : ∀ a ∈ array, Reads read ns (write a) (f a)) :
    Reads (deserializeArray read) ns (serializeArray write array) (array.map f) := by
  have harray : Reads (do
      let count ← beginAggregate
      times read count) ns (serializeArray write array) (array.map f) :=
    (reads_beginAggregate array.length).cons (.times array h)
  intro rest
  have hrun := harray rest
  unfold deserializeArray
  simp only [StateT.run] at hrun ⊢
  rw [hrun]

/-- What is written begins with an aggregate. -/
def IsAggregate (items : List Item) : Prop := ∃ count rest, items = .beginAggregate count :: rest

theorem reads_optional {o : Option α} (h : ∀ a ∈ o, Reads read ns (write a) (f a))
    (haggregate : ∀ a, IsAggregate (write a)) :
    Reads (deserializeOptional read) ns (serializeOptional write o) (o.map f) := by
  cases o with
  | none => exact .optional_none
  | some a =>
    obtain ⟨count, rest, hwrite⟩ := haggregate a
    have hread : Reads read ns (write a) (f a) := h a rfl
    rw [hwrite] at hread
    show Reads (optional .nil read) ns (write a) (some (f a))
    rw [hwrite]
    exact hread.optional_some (by simp)

end Combinators

/-! ## Programs and expressions -/

theorem Retrieval.ofRawValue_rawValue (op : MacroEvaluationRetrievalOperator) :
    ofRawValue (rawValue op) = some op := by
  cases op <;> rfl

theorem Replacement.ofRawValue_rawValue (op : MacroEvaluationReplacementOperator) :
    ofRawValue (rawValue op) = some op := by
  cases op <;> rfl

theorem reads_noValue {α : Type} (a : α) (message : Text) : Reads (deserializeNoValue a message) ns [.nil] a := by
  apply reads_nil.cons
  exact .pure ns a

theorem reads_operator {α : Type} {ofRawValue : Int → Option α} {opVal : Int} {op : α}
    (h : ofRawValue opVal = some op) (instrName : Text) :
    Reads (deserializeOperator ofRawValue instrName) ns [.integer opVal] op := by
  apply (reads_integer opVal).cons
  rw [h]
  exact .pure ns op

theorem reads_instr (instr : EvalInstr) : Reads deserializeInstr ns (serializeInstr instr) instr := by
  apply (reads_beginAggregateOf 2).cons
  -- The code selects the branch that reads the associated value.
  cases instr with
  | appendLiteral string => exact (reads_integer 0).cons ((reads_string string).map _)
  | appendStringFormOnlyLiteral string => exact (reads_integer 1).cons ((reads_string string).map _)
  | setNeedsListSeparator string => exact (reads_integer 2).cons ((reads_string string).map _)
  | beginSubresult => exact (reads_integer 3).cons (reads_noValue _ _)
  | evalNamedMacro asString preservesOriginal =>
    cases preservesOriginal with
    | false => exact (reads_integer 4).cons ((reads_boolean asString).map (EvalInstr.evalNamedMacro · false))
    | true => exact (reads_integer 5).cons ((reads_boolean asString).map (EvalInstr.evalNamedMacro · true))
  | mergeSubresult => exact (reads_integer 6).cons (reads_noValue _ _)
  | applyRetrievalOperator op =>
    exact (reads_integer 7).cons ((reads_operator (Retrieval.ofRawValue_rawValue op) _).map _)
  | applyReplacementOperator op =>
    exact (reads_integer 8).cons ((reads_operator (Replacement.ofRawValue_rawValue op) _).map _)

theorem reads_program (program : MacroEvaluationProgram) :
    Reads deserializeProgram ns (serializeProgram program) program := by
  apply (reads_beginAggregateOf 2).cons
  cases program with
  | empty => exact (reads_integer 0).cons (reads_noValue _ _)
  | literal string => exact (reads_integer 1).cons ((reads_string string).map _)
  | instructions instructions =>
    have harray : Reads (deserializeArray deserializeInstr) ns (serializeArray serializeInstr instructions)
        (instructions.map id) := reads_array fun instr _ => reads_instr instr
    rw [List.map_id] at harray
    exact (reads_integer 2).cons (harray.map _)

theorem classForCode_serializableTypeCode (type : ExpressionClass) :
    ExpressionClass.classForCode type.serializableTypeCode = some type := by
  cases type <;> rfl

theorem reads_expression (expression : MacroExpression) :
    Reads deserializeExpression ns (serializeExpression expression) expression := by
  apply (reads_beginAggregateOf 2).cons
  apply (reads_uint expression.type.serializableTypeCode).cons
  rw [classForCode_serializableTypeCode]
  apply (reads_beginAggregateOf 2).cons
  apply (reads_string expression.stringRep).cons
  exact (reads_program expression.evalProgram).map fun evalProgram =>
    MacroExpression.mk expression.type expression.stringRep evalProgram

theorem reads_location (interned : InternedMacroValueAssignmentLocation) :
    Reads deserializeLocation ns (serializeLocation interned) interned := by
  apply (reads_beginAggregateOf 5).cons
  apply (reads_integer interned.pathRef).cons
  apply (reads_integer interned.startLine).cons
  apply (reads_integer interned.endLine).cons
  apply (reads_integer interned.startColumn).cons
  apply (reads_integer interned.endColumn).cons
  exact .pure ns interned

section Namespaces

variable (fns : MatchFunctions)

/-! ## Names found in the namespace -/

/-- The parameter that a namespace has under the name of another one. -/
def DelegateNamespace.parameterNamed (ns : DelegateNamespace) (parameter : MacroConditionParameter) :
    MacroConditionParameter :=
  (ns.lookupConditionParameter fns parameter.name).getD parameter

/-- The macro that a namespace has under the name of another one. -/
def DelegateNamespace.macroNamed (ns : DelegateNamespace) (decl : MacroDeclaration) : MacroDeclaration :=
  (ns.macroNamespace.lookupMacroDeclaration fns decl.name).getD decl

def DelegateNamespace.HasParameter (ns : DelegateNamespace) (parameter : MacroConditionParameter) : Prop :=
  parameter.name ≠ [] ∧ (ns.lookupConditionParameter fns parameter.name).isSome

/-- The namespace has a macro of this name and type. -/
def DelegateNamespace.HasMacro (ns : DelegateNamespace) (decl : MacroDeclaration) : Prop :=
  ∃ decl', ns.macroNamespace.lookupMacroDeclaration fns decl.name = some decl' ∧ decl'.type = decl.type

def DelegateNamespace.condition (ns : DelegateNamespace) (condition : MacroCondition) : MacroCondition :=
  ⟨ns.parameterNamed fns condition.parameter, condition.valuePattern⟩

/-- An assignment with the parameters of a namespace. -/
def DelegateNamespace.node (ns : DelegateNamespace) (node : AssignmentNode) : AssignmentNode :=
  { node with conditions := node.conditions.map fun conditions => conditions.map (ns.condition fns) }

def DelegateNamespace.assignment (ns : DelegateNamespace) : MacroValueAssignment → MacroValueAssignment
  | .last node => .last (ns.node fns node)
  | .followedBy node next => .followedBy (ns.node fns node) (ns.assignment next)

/-- The namespace has the parameters of all conditions of the assignment. -/
def DelegateNamespace.HasNode (ns : DelegateNamespace) (node : AssignmentNode) : Prop :=
  ∀ conditions ∈ node.conditions, ∀ condition ∈ conditions, ns.HasParameter fns condition.parameter

theorem nodes_assignment (ns : DelegateNamespace) (asgn : MacroValueAssignment) :
    (ns.assignment fns asgn).nodes = asgn.nodes.map (ns.node fns) := by
  induction asgn with
  | last node => rfl
  | followedBy node next ih => exact congrArg (ns.node fns node :: ·) ih

variable {fns}

theorem reads_parameter {parameter : MacroConditionParameter} (h : ns.HasParameter fns parameter) :
    Reads (lookupOrDeclareConditionParameter fns parameter.name) ns [] (ns.parameterNamed fns parameter) := by
  obtain ⟨hname, hsome⟩ := h
  obtain ⟨found, hfound⟩ := isSome_iff_exists.mp hsome
  intro rest
  unfold lookupOrDeclareConditionParameter DelegateNamespace.parameterNamed
  have hpure : pure (found, rest, ns) = (.ok (found, rest, ns) : Except Failure _) := rfl
  simpa [hname, hfound] using hpure

theorem typeForCode_typeCode (type : MacroType) : typeForCode (typeCode type) = some type := by
  cases type <;> rfl

theorem reads_macroDeclaration {decl : MacroDeclaration} (h : ns.HasMacro fns decl) :
    Reads (lookupOrDeclareMacro fns decl.name (typeCode decl.type)) ns [] (ns.macroNamed fns decl) := by
  obtain ⟨found, hfound, htype⟩ := h
  intro rest
  unfold lookupOrDeclareMacro DelegateNamespace.macroNamed
  have hpure : pure (found, rest, ns) = (.ok (found, rest, ns) : Except Failure _) := rfl
  simpa [decl.name_ne_nil, hfound, typeForCode_typeCode, htype] using hpure

/-! ## Assignments -/

theorem reads_condition {condition : MacroCondition} (h : ns.HasParameter fns condition.parameter) :
    Reads (deserializeCondition fns) ns (serializeCondition condition) (ns.condition fns condition) := by
  apply (reads_beginAggregateOf 2).cons
  apply (reads_string condition.parameter.name).cons
  apply (reads_parameter h).nil
  apply (reads_string condition.valuePattern).cons
  exact .pure ns _

theorem reads_conditionSet {conditions : List MacroCondition}
    (h : ∀ condition ∈ conditions, ns.HasParameter fns condition.parameter) :
    Reads (deserializeConditionSet fns) ns (serializeConditionSet conditions) (conditions.map (ns.condition fns)) :=
  (reads_beginAggregateOf 1).cons (reads_array fun condition hmem => reads_condition (h condition hmem))

variable (asgn : MacroValueAssignment)

theorem isAggregate_assignment : IsAggregate (serializeAssignment asgn) := by
  cases asgn with
  | last node | followedBy node next => exact ⟨4, _, rfl⟩

/-- An assignment is read back if what is written for its `next` is. -/
theorem reads_node {node : AssignmentNode} (hnode : ns.HasNode fns node)
    {deserializeNext : Deserializer MacroValueAssignment} {items : List Item} {next : Option MacroValueAssignment}
    (hnext : Reads (deserializeOptional deserializeNext) ns items next) :
    Reads (deserializeNode fns deserializeNext) ns (serializeNode node items)
      (match next with
        | none => .last (ns.node fns node)
        | some next => .followedBy (ns.node fns node) next) := by
  have hconditions : Reads (deserializeOptional (deserializeConditionSet fns)) ns
      (serializeOptional serializeConditionSet node.conditions) (ns.node fns node).conditions :=
    reads_optional (fun conditions hmem => reads_conditionSet (hnode conditions hmem)) fun _ => ⟨1, _, rfl⟩
  have hlocation : Reads (deserializeOptional deserializeLocation) ns
      (serializeOptional serializeLocation node.location) (node.location.map id) :=
    reads_optional (fun interned _ => reads_location interned) fun _ => ⟨5, _, rfl⟩
  rw [map_id, id_eq] at hlocation
  simp only [serializeNode, List.cons_append, List.append_assoc]
  apply (reads_beginAggregateOf 4).cons
  apply (reads_expression node.expression).bind
  apply hconditions.bind
  apply hnext.bind
  rw [← List.append_nil (serializeOptional serializeLocation node.location)]
  apply hlocation.bind
  cases next with
  | none | some next => exact .pure ns _

theorem reads_linked {asgn : MacroValueAssignment} (h : ∀ node ∈ asgn.nodes, ns.HasNode fns node) {limit : Nat}
    (hlimit : asgn.nodes.length ≤ limit) :
    Reads (deserializeLinked fns limit) ns (serializeAssignment asgn) (ns.assignment fns asgn) := by
  induction asgn generalizing limit with
  | last node =>
    obtain ⟨limit, rfl⟩ := Nat.exists_eq_succ_of_ne_zero (Nat.ne_zero_of_lt hlimit)
    exact reads_node (h node List.mem_cons_self) .optional_none
  | followedBy node next ih =>
    obtain ⟨limit, rfl⟩ := Nat.exists_eq_succ_of_ne_zero (Nat.ne_zero_of_lt hlimit)
    have hread : Reads (deserializeLinked fns limit) ns (serializeAssignment next) (ns.assignment fns next) :=
      ih (fun node hmem => h node (List.mem_cons_of_mem _ hmem)) (Nat.le_of_succ_le_succ hlimit)
    have hnext : Reads (deserializeOptional (deserializeLinked fns limit)) ns (serializeAssignment next)
        (some (ns.assignment fns next)) :=
      reads_optional (o := some next) (fun _ hsome => some.inj hsome ▸ hread) isAggregate_assignment
    exact reads_node (h node List.mem_cons_self) hnext

theorem length_nodes_le : asgn.nodes.length ≤ (serializeAssignment asgn).length := by
  induction asgn with
  | last node => simp [nodes, serializeAssignment, serializeNode]
  | followedBy node next ih =>
    simp only [nodes, serializeAssignment, serializeNode, List.length_cons, List.length_append]
    omega

theorem reads_assignment {asgn : MacroValueAssignment} (h : ∀ node ∈ asgn.nodes, ns.HasNode fns node) :
    Reads (deserializeAssignment fns) ns (serializeAssignment asgn) (ns.assignment fns asgn) := by
  intro rest
  have hlimit : asgn.nodes.length ≤ (serializeAssignment asgn ++ rest).length := by
    rw [List.length_append]
    exact Nat.le_add_right_of_le (length_nodes_le asgn)
  exact reads_linked h hlimit rest

/-! ## Tables and scopes -/

/-- The namespace has a macro and the parameters of its conditions. -/
def DelegateNamespace.HasEntry (fns : MatchFunctions) (ns : DelegateNamespace)
    (entry : Sigma fun _ : MacroDeclaration => MacroValueAssignment) : Prop :=
  ns.HasMacro fns entry.1 ∧ ∀ node ∈ entry.2.nodes, ns.HasNode fns node

theorem reads_entry {entry : Sigma fun _ : MacroDeclaration => MacroValueAssignment} (h : ns.HasEntry fns entry) :
    Reads (deserializeEntry fns) ns (serializeEntry entry)
      (ns.macroNamed fns entry.1, ns.assignment fns entry.2) := by
  apply (reads_beginAggregateOf 2).cons
  apply (reads_beginAggregateOf 2).cons
  apply (reads_string entry.1.name).cons
  apply (reads_integer (typeCode entry.1.type)).cons
  apply (reads_macroDeclaration h.1).nil
  exact (reads_assignment h.2).map fun asgn => (ns.macroNamed fns entry.1, asgn)

theorem sortedByName_perm (precedes : Text → Text → Bool) {κ ν : Type} (name : κ → Text)
    (dict : AList fun _ : κ => ν) : (sortedByName precedes name dict).Perm dict.entries :=
  List.mergeSort_perm _ _

variable (fns)

variable (precedes : Text → Text → Bool)

/-- The table that is read from what was written for another one. -/
def DelegateNamespace.table (ns : DelegateNamespace)
    (table : MacroValueAssignmentTable) : MacroValueAssignmentTable :=
  dictionary ((sortedByName precedes MacroDeclaration.name table).map fun entry =>
    (ns.macroNamed fns entry.1, ns.assignment fns entry.2))

def DelegateNamespace.parameterValues (ns : DelegateNamespace)
    (values : AList fun _ : MacroConditionParameter => List Text) : AList fun _ : MacroConditionParameter => List Text :=
  dictionary ((sortedByName precedes MacroConditionParameter.name values).map fun entry =>
    (ns.parameterNamed fns entry.1, entry.2))

variable {fns} {precedes : Text → Text → Bool}

theorem reads_table {table : MacroValueAssignmentTable} (h : ∀ entry ∈ table.entries, ns.HasEntry fns entry) :
    Reads (deserializeTable fns) ns (serializeTable precedes table) (ns.table fns precedes table) := by
  have hperm := sortedByName_perm precedes MacroDeclaration.name table
  have hentries := Reads.times (sortedByName precedes MacroDeclaration.name table)
    fun entry hmem => reads_entry (h entry (hperm.mem_iff.mp hmem))
  rw [hperm.length_eq] at hentries
  apply (reads_beginAggregateOf 1).cons
  apply (reads_beginAggregate table.entries.length).cons
  exact hentries.map dictionary

theorem reads_parameterValues {entry : Sigma fun _ : MacroConditionParameter => List Text}
    (h : ns.HasParameter fns entry.1) :
    Reads (deserializeParameterValues fns) ns (serializeParameterValues entry)
      (ns.parameterNamed fns entry.1, entry.2) := by
  have harray : Reads (deserializeArray deserializeString) ns
      (serializeArray (fun value => [Item.string value]) entry.2) (entry.2.map id) :=
    reads_array fun value _ => reads_string value
  rw [List.map_id] at harray
  apply (reads_beginAggregateOf 2).cons
  apply (reads_string entry.1.name).cons
  apply (reads_parameter h).nil
  exact harray.map fun values => (ns.parameterNamed fns entry.1, values)

theorem reads_scope {scope : MacroEvaluationScope} (h : ∀ entry ∈ scope.table.entries, ns.HasEntry fns entry)
    (hvalues : ∀ entry ∈ scope.conditionParameterValues.entries, ns.HasParameter fns entry.1) :
    Reads (deserializeScope fns) ns (serializeScope precedes scope)
      ⟨ns.table fns precedes scope.table, ns.parameterValues fns precedes scope.conditionParameterValues⟩ := by
  have hperm := sortedByName_perm precedes MacroConditionParameter.name scope.conditionParameterValues
  have hentries := Reads.times (sortedByName precedes MacroConditionParameter.name scope.conditionParameterValues)
    fun entry hmem => reads_parameterValues (hvalues entry (hperm.mem_iff.mp hmem))
  rw [hperm.length_eq] at hentries
  apply (reads_beginAggregateOf 2).cons
  apply (reads_table h).bind
  apply (reads_beginAggregate scope.conditionParameterValues.entries.length).cons
  exact hentries.map fun entries => MacroEvaluationScope.mk (ns.table fns precedes scope.table) (dictionary entries)

end Namespaces

/-! ## Two processes -/

/-- What can be seen of an assignment: its conditions with the names of their parameters, and its location. The
inner none is a location that traps. -/
structure AssignmentView where
  expression : MacroExpression
  conditions : Option (List (Text × Text))
  location : Option (Option MacroValueAssignmentLocation)
deriving DecidableEq

def AssignmentNode.view (paths : MacroConfigPaths) (node : AssignmentNode) : AssignmentView where
  expression := node.expression
  conditions := node.conditions.map fun conditions =>
    conditions.map fun condition => (condition.parameter.name, condition.valuePattern)
  location := node.location.map fun interned => interned.location paths

def MacroValueAssignment.view (paths : MacroConfigPaths) (asgn : MacroValueAssignment) : List AssignmentView :=
  asgn.nodes.map (AssignmentNode.view paths)

/-- Two namespaces have macros of the same names and types, and parameters of the same names. -/
structure SameDeclarations (fns : MatchFunctions) (ns ns' : DelegateNamespace) : Prop where
  macros : ∀ name, (ns.macroNamespace.lookupMacroDeclaration fns name).map (fun decl => (decl.name, decl.type))
    = (ns'.macroNamespace.lookupMacroDeclaration fns name).map (fun decl => (decl.name, decl.type))
  parameters : ∀ name, (ns.lookupConditionParameter fns name).map MacroConditionParameter.name
    = (ns'.lookupConditionParameter fns name).map MacroConditionParameter.name

def DelegateNamespace.Declares (fns : MatchFunctions) (ns : DelegateNamespace) (parameter : MacroConditionParameter) :
    Prop :=
  parameter.name ≠ [] ∧ ns.lookupConditionParameter fns parameter.name = some parameter

/-- A scope of a process: its macros and parameters are those of the namespace, as `push` asserts, and its
locations were interned in the path table. -/
structure DeclaredScope (fns : MatchFunctions) (ns : DelegateNamespace) (paths : MacroConfigPaths) extends
    MacroEvaluationScope where
  macros_declared : ∀ decl ∈ table, ns.macroNamespace.lookupMacroDeclaration fns decl.name = some decl
  conditions_declared : ∀ entry ∈ table.entries, ∀ node ∈ entry.2.nodes, ∀ conditions ∈ node.conditions,
    ∀ condition ∈ conditions, ns.Declares fns condition.parameter
  parameters_declared : ∀ parameter ∈ conditionParameterValues, ns.Declares fns parameter
  interned : ∀ entry ∈ table.entries, ∀ node ∈ entry.2.nodes, ∀ interned ∈ node.location,
    (paths.subscript interned.pathRef).isSome

/-- Every macro has the same assignments in both tables. -/
def SameTable (fns : MatchFunctions) (ns ns' : DelegateNamespace) (paths paths' : MacroConfigPaths)
    (table table' : MacroValueAssignmentTable) : Prop :=
  ∀ decl decl', ns.macroNamespace.lookupMacroDeclaration fns decl.name = some decl →
    ns'.macroNamespace.lookupMacroDeclaration fns decl.name = some decl' →
    (table'.lookup decl').map (MacroValueAssignment.view paths') = (table.lookup decl).map (MacroValueAssignment.view paths)

/-- Every condition parameter has the same values in both dictionaries. -/
def SameValues (fns : MatchFunctions) (ns ns' : DelegateNamespace)
    (values values' : AList fun _ : MacroConditionParameter => List Text) : Prop :=
  ∀ parameter parameter', ns.lookupConditionParameter fns parameter.name = some parameter →
    ns'.lookupConditionParameter fns parameter.name = some parameter' →
    values'.lookup parameter' = values.lookup parameter

/-- A table that one process writes is read as the same table by another. -/
def TableRoundTrips (fns : MatchFunctions) (precedes : Text → Text → Bool) (ns ns' : DelegateNamespace)
    (paths paths' : MacroConfigPaths) (table : MacroValueAssignmentTable) : Prop :=
  ∃ table', (deserializeTable fns).run (serializeTable precedes table, ns') = .ok (table', ([], ns'))
    ∧ SameTable fns ns ns' paths paths' table table'

def ScopeRoundTrips (fns : MatchFunctions) (precedes : Text → Text → Bool) (ns ns' : DelegateNamespace)
    (paths paths' : MacroConfigPaths) (scope : MacroEvaluationScope) : Prop :=
  ∃ scope', (deserializeScope fns).run (serializeScope precedes scope, ns') = .ok (scope', ([], ns'))
    ∧ SameTable fns ns ns' paths paths' scope.table scope'.table
    ∧ SameValues fns ns ns' scope.conditionParameterValues scope'.conditionParameterValues

/-- Two path tables have the same paths at the indices of a table's locations. -/
def PathsAgree (paths paths' : MacroConfigPaths) (table : MacroValueAssignmentTable) : Prop :=
  ∀ entry ∈ table.entries, ∀ node ∈ entry.2.nodes, ∀ interned ∈ node.location,
    paths'.subscript interned.pathRef = paths.subscript interned.pathRef

/-! ### Views -/

variable {paths paths' : MacroConfigPaths}

theorem location_eq_iff (interned : InternedMacroValueAssignmentLocation) :
    interned.location paths' = interned.location paths
      ↔ paths'.subscript interned.pathRef = paths.subscript interned.pathRef := by
  unfold InternedMacroValueAssignmentLocation.location
  cases paths'.subscript interned.pathRef with
  | none | some path' => cases paths.subscript interned.pathRef <;> simp

theorem view_eq_iff (node : AssignmentNode) :
    node.view paths' = node.view paths ↔ ∀ interned ∈ node.location,
      paths'.subscript interned.pathRef = paths.subscript interned.pathRef := by
  unfold AssignmentNode.view
  cases hlocation : node.location with
  | none => simp
  | some interned => simp [location_eq_iff]

/-- What is seen of a declaration under its name is seen of what is found there. -/
theorem found_of_map {α β : Type} {seen : α → β} {found found' : Option α} {a : α}
    (hsame : found.map seen = found'.map seen) (hfound : found = some a) :
    found' = some (found'.getD a) ∧ seen (found'.getD a) = seen a := by
  rw [hfound, map_some] at hsame
  obtain ⟨a', rfl, heq⟩ := map_eq_some_iff.mp hsame.symm
  exact ⟨rfl, heq⟩

section SameDeclarations

variable {fns : MatchFunctions} {ns ns' : DelegateNamespace} (h : SameDeclarations fns ns ns')
include h

/-- A declared macro is found in the other namespace, with its name and type. -/
theorem SameDeclarations.macroFound {decl : MacroDeclaration}
    (hdecl : ns.macroNamespace.lookupMacroDeclaration fns decl.name = some decl) :
    ns'.macroNamespace.lookupMacroDeclaration fns decl.name = some (ns'.macroNamed fns decl)
      ∧ (ns'.macroNamed fns decl).name = decl.name ∧ (ns'.macroNamed fns decl).type = decl.type := by
  obtain ⟨hlookup, heq⟩ := found_of_map (h.macros decl.name) hdecl
  exact ⟨hlookup, congrArg Prod.fst heq, congrArg Prod.snd heq⟩

variable {parameter : MacroConditionParameter}

theorem SameDeclarations.parameterFound (hparameter : ns.lookupConditionParameter fns parameter.name = some parameter) :
    ns'.lookupConditionParameter fns parameter.name = some (ns'.parameterNamed fns parameter)
      ∧ (ns'.parameterNamed fns parameter).name = parameter.name :=
  found_of_map (h.parameters parameter.name) hparameter

/-- Different macros have different names, so they stay different. -/
theorem SameDeclarations.macroNamed_inj {decl decl' : MacroDeclaration}
    (hdecl : ns.macroNamespace.lookupMacroDeclaration fns decl.name = some decl)
    (hdecl' : ns.macroNamespace.lookupMacroDeclaration fns decl'.name = some decl')
    (heq : ns'.macroNamed fns decl = ns'.macroNamed fns decl') : decl = decl' := by
  have hname : decl.name = decl'.name := by
    rw [← (h.macroFound hdecl).2.1, heq, (h.macroFound hdecl').2.1]
  rw [hname, hdecl'] at hdecl
  exact (some.inj hdecl).symm

theorem SameDeclarations.parameterNamed_inj {parameter' : MacroConditionParameter}
    (hparameter : ns.lookupConditionParameter fns parameter.name = some parameter)
    (hparameter' : ns.lookupConditionParameter fns parameter'.name = some parameter')
    (heq : ns'.parameterNamed fns parameter = ns'.parameterNamed fns parameter') : parameter = parameter' := by
  have hname : parameter.name = parameter'.name := by
    rw [← (h.parameterFound hparameter).2, heq, (h.parameterFound hparameter').2]
  rw [hname, hparameter'] at hparameter
  exact (some.inj hparameter).symm

theorem SameDeclarations.hasParameter (hdeclared : ns.Declares fns parameter) :
    ns'.HasParameter fns parameter := by
  refine ⟨hdeclared.1, ?_⟩
  rw [(h.parameterFound hdeclared.2).1]
  rfl

/-- The parameters of conditions keep their names. -/
theorem SameDeclarations.view_node {node : AssignmentNode}
    (hnode : ∀ conditions ∈ node.conditions, ∀ condition ∈ conditions, ns.Declares fns condition.parameter)
    (paths : MacroConfigPaths) : (ns'.node fns node).view paths = node.view paths := by
  have hconditions : ((ns'.node fns node).view paths).conditions = (node.view paths).conditions := by
    unfold AssignmentNode.view DelegateNamespace.node
    rw [map_map]
    apply Option.map_congr
    intro conditions hmem
    rw [Function.comp_apply, List.map_map]
    apply List.map_congr_left
    intro condition hcondition
    exact congrArg (·, condition.valuePattern) (h.parameterFound (hnode conditions hmem condition hcondition).2).2
  unfold AssignmentNode.view at hconditions ⊢
  rw [AssignmentView.mk.injEq]
  exact ⟨rfl, hconditions, rfl⟩

end SameDeclarations

/-! ### Scopes -/

namespace DeclaredScope

variable {fns : MatchFunctions} {precedes : Text → Text → Bool} {ns ns' : DelegateNamespace}
  {paths paths' : MacroConfigPaths} (scope : DeclaredScope fns ns paths)

section

variable (h : SameDeclarations fns ns ns')
include h

theorem hasEntry :
    ∀ entry ∈ scope.table.entries, ns'.HasEntry fns entry := by
  intro entry hmem
  have hdecl := scope.macros_declared entry.1 (List.mem_map_of_mem hmem)
  obtain ⟨hlookup, -, htype⟩ := h.macroFound hdecl
  refine ⟨⟨_, hlookup, htype⟩, ?_⟩
  intro node hnode conditions hconditions condition hcondition
  exact h.hasParameter (scope.conditions_declared entry hmem node hnode conditions hconditions condition hcondition)

theorem hasValues :
    ∀ entry ∈ scope.conditionParameterValues.entries, ns'.HasParameter fns entry.1 := by
  intro entry hmem
  exact h.hasParameter (scope.parameters_declared entry.1 (List.mem_map_of_mem hmem))

/-- A declared macro has its assignments in the table that is read, with the parameters of the namespace. -/
theorem lookup_table {decl : MacroDeclaration}
    (hdecl : ns.macroNamespace.lookupMacroDeclaration fns decl.name = some decl) :
    (ns'.table fns precedes scope.table).lookup (ns'.macroNamed fns decl)
      = (scope.table.lookup decl).map (ns'.assignment fns) := by
  apply lookup_dictionary_rename (sortedByName_perm precedes MacroDeclaration.name scope.table) (ns'.macroNamed fns)
  · intro decl₁ hmem₁ decl₂ hmem₂ heq
    exact h.macroNamed_inj (scope.macros_declared decl₁ hmem₁) (scope.macros_declared decl₂ hmem₂) heq
  · intro decl₁ hmem₁ heq
    exact h.macroNamed_inj (scope.macros_declared decl₁ hmem₁) hdecl heq

theorem lookup_parameterValues {parameter : MacroConditionParameter}
    (hparameter : ns.lookupConditionParameter fns parameter.name = some parameter) :
    (ns'.parameterValues fns precedes scope.conditionParameterValues).lookup (ns'.parameterNamed fns parameter)
      = scope.conditionParameterValues.lookup parameter := by
  have hrename : (ns'.parameterValues fns precedes scope.conditionParameterValues).lookup
      (ns'.parameterNamed fns parameter) = (scope.conditionParameterValues.lookup parameter).map id := by
    apply lookup_dictionary_rename
      (sortedByName_perm precedes MacroConditionParameter.name scope.conditionParameterValues)
      (ns'.parameterNamed fns) id
    · intro parameter₁ hmem₁ parameter₂ hmem₂ heq
      exact h.parameterNamed_inj (scope.parameters_declared parameter₁ hmem₁).2
        (scope.parameters_declared parameter₂ hmem₂).2 heq
    · intro parameter₁ hmem₁ heq
      exact h.parameterNamed_inj (scope.parameters_declared parameter₁ hmem₁).2 hparameter heq
  rwa [map_id] at hrename

theorem sameValues :
    SameValues fns ns ns' scope.conditionParameterValues
      (ns'.parameterValues fns precedes scope.conditionParameterValues) := by
  intro parameter parameter' hparameter hparameter'
  have hnamed := (h.parameterFound hparameter).1
  rw [hparameter'] at hnamed
  rw [some.inj hnamed]
  exact scope.lookup_parameterValues h hparameter

/-- The assignments of a table, read in another process, are seen as in the first one exactly when the paths
agree. -/
theorem view_eq_iff
    {entry : Sigma fun _ : MacroDeclaration => MacroValueAssignment} (hmem : entry ∈ scope.table.entries) :
    (ns'.assignment fns entry.2).view paths' = entry.2.view paths ↔ ∀ node ∈ entry.2.nodes,
      ∀ interned ∈ node.location, paths'.subscript interned.pathRef = paths.subscript interned.pathRef := by
  have hview : (ns'.assignment fns entry.2).view paths' = entry.2.nodes.map (AssignmentNode.view paths') := by
    unfold view
    rw [nodes_assignment, List.map_map]
    apply List.map_congr_left
    intro node hnode
    exact h.view_node (scope.conditions_declared entry hmem node hnode) paths'
  rw [hview]
  unfold view
  rw [List.map_inj_left]
  exact forall₂_congr fun node _ => Serialization.view_eq_iff node

theorem sameTable_iff :
    SameTable fns ns ns' paths paths' scope.table (ns'.table fns precedes scope.table)
      ↔ PathsAgree paths paths' scope.table := by
  constructor
  · intro hsame entry hmem
    have hdecl := scope.macros_declared entry.1 (List.mem_map_of_mem hmem)
    have hfound : scope.table.lookup entry.1 = some entry.2 := AList.mem_lookup_iff.mpr hmem
    have hviews := hsame entry.1 _ hdecl (h.macroFound hdecl).1
    rw [scope.lookup_table h hdecl, hfound] at hviews
    exact (scope.view_eq_iff h hmem).mp (some.inj hviews)
  · intro hagree decl decl' hdecl hdecl'
    rw [(h.macroFound hdecl).1] at hdecl'
    rw [← some.inj hdecl', scope.lookup_table h hdecl]
    cases hfound : scope.table.lookup decl with
    | none => rfl
    | some asgn =>
      have hmem : ⟨decl, asgn⟩ ∈ scope.table.entries := AList.mem_lookup_iff.mp hfound
      exact congrArg some ((scope.view_eq_iff h hmem).mpr (hagree _ hmem))

/-! ### The round trip -/

theorem run_deserializeTable :
    (deserializeTable fns).run (serializeTable precedes scope.table, ns')
      = .ok (ns'.table fns precedes scope.table, ([], ns')) :=
  (reads_table (scope.hasEntry h)).run

theorem tableRoundTrips_iff :
    TableRoundTrips fns precedes ns ns' paths paths' scope.table ↔ PathsAgree paths paths' scope.table := by
  unfold TableRoundTrips
  rw [scope.run_deserializeTable h]
  rw [← scope.sameTable_iff h]
  constructor
  · rintro ⟨table', hrun, hsame⟩
    cases hrun
    exact hsame
  · intro hsame
    exact ⟨_, rfl, hsame⟩

theorem run_deserializeScope :
    (deserializeScope fns).run (serializeScope precedes scope.toMacroEvaluationScope, ns')
      = .ok (⟨ns'.table fns precedes scope.table,
        ns'.parameterValues fns precedes scope.conditionParameterValues⟩, ([], ns')) :=
  (reads_scope (scope.hasEntry h) (scope.hasValues h)).run

theorem scopeRoundTrips_iff :
    ScopeRoundTrips fns precedes ns ns' paths paths' scope.toMacroEvaluationScope
      ↔ PathsAgree paths paths' scope.table := by
  have hsame_iff : SameTable fns ns ns' paths paths' scope.table (ns'.table fns precedes scope.table)
      ↔ PathsAgree paths paths' scope.table := scope.sameTable_iff h
  unfold ScopeRoundTrips
  rw [scope.run_deserializeScope h, ← hsame_iff]
  constructor
  · rintro ⟨scope', hrun, hsame, -⟩
    cases hrun
    exact hsame
  · intro hsame
    exact ⟨_, rfl, hsame, scope.sameValues h⟩

end

end DeclaredScope

/-- A table and a scope are read back in another process, with a namespace that has the same declarations, exactly
when that process has the same paths at the indices of the locations. -/
theorem table_and_scope_roundTrip {fns : MatchFunctions} (precedes : Text → Text → Bool) {ns ns' : DelegateNamespace}
    {paths : MacroConfigPaths} (paths' : MacroConfigPaths) (scope : DeclaredScope fns ns paths)
    (h : SameDeclarations fns ns ns') :
    (TableRoundTrips fns precedes ns ns' paths paths' scope.table ↔ PathsAgree paths paths' scope.table)
      ∧ (ScopeRoundTrips fns precedes ns ns' paths paths' scope.toMacroEvaluationScope
        ↔ PathsAgree paths paths' scope.table) :=
  ⟨scope.tableRoundTrips_iff h, scope.scopeRoundTrips_iff h⟩

/-- A macro with one assignment, from line 1 of a configuration file. -/
def productName : MacroDeclaration := ⟨0, text "PRODUCT_NAME", .string, by decide⟩

def productNamespace : DelegateNamespace := ⟨.root [productName], [], [], 1⟩

def productAssignment : AssignmentNode where
  expression := ⟨.macroStringExpression, text "tool", .literal (text "tool")⟩
  conditions := none
  location := some ⟨0, 1, 1, 1, 20⟩

/-- Strings compared by their bytes, and a pattern that matches itself. -/
def byteFunctions : MatchFunctions := ⟨fun s t => s = t, fun pattern s => pattern = s, id⟩

def productScope : DeclaredScope byteFunctions productNamespace [text "/a.xcconfig"] where
  table := AList.singleton productName (.last productAssignment)
  conditionParameterValues := ∅
  macros_declared := by
    intro decl hmem
    rw [AList.mem_keys, AList.keys_singleton, List.mem_singleton] at hmem
    rw [hmem]
    decide
  conditions_declared := by
    intro entry hmem node hnode conditions hconditions
    rw [List.mem_singleton.mp hmem] at hnode
    rw [List.mem_singleton.mp hnode] at hconditions
    cases hconditions
  parameters_declared := by
    intro parameter hmem
    exact absurd hmem (AList.notMem_empty parameter)
  interned := by
    intro entry hmem node hnode interned hinterned
    rw [List.mem_singleton.mp hmem] at hnode
    rw [List.mem_singleton.mp hnode] at hinterned
    cases hinterned
    decide

theorem sameDeclarations_refl (fns : MatchFunctions) (ns : DelegateNamespace) : SameDeclarations fns ns ns :=
  ⟨fun _ => rfl, fun _ => rfl⟩

/-- In a process whose second path is another one, the scope is read back. -/
theorem productScope_roundTrip :
    TableRoundTrips byteFunctions (· < ·) productNamespace productNamespace [text "/a.xcconfig"]
        [text "/a.xcconfig", text "/b.xcconfig"] productScope.table
      ∧ ScopeRoundTrips byteFunctions (· < ·) productNamespace productNamespace [text "/a.xcconfig"]
        [text "/a.xcconfig", text "/b.xcconfig"] productScope.toMacroEvaluationScope := by
  have hagree : PathsAgree [text "/a.xcconfig"] [text "/a.xcconfig", text "/b.xcconfig"] productScope.table := by
    intro entry hmem node hnode interned hinterned
    rw [List.mem_singleton.mp hmem] at hnode
    rw [List.mem_singleton.mp hnode] at hinterned
    cases hinterned
    decide
  have hroundTrip := table_and_scope_roundTrip (· < ·) [text "/a.xcconfig", text "/b.xcconfig"] productScope
    (sameDeclarations_refl byteFunctions productNamespace)
  exact ⟨hroundTrip.1.mpr hagree, hroundTrip.2.mpr hagree⟩

/-- It is not in a process without paths, where the location traps, nor in one that interned another path first. -/
theorem productScope_not_roundTrip :
    SameDeclarations byteFunctions productNamespace productNamespace
      ∧ ¬ScopeRoundTrips byteFunctions (· < ·) productNamespace productNamespace [text "/a.xcconfig"] []
        productScope.toMacroEvaluationScope
      ∧ ¬ScopeRoundTrips byteFunctions (· < ·) productNamespace productNamespace [text "/a.xcconfig"]
        [text "/b.xcconfig"] productScope.toMacroEvaluationScope := by
  have hsame := sameDeclarations_refl byteFunctions productNamespace
  have hentry : ⟨productName, .last productAssignment⟩ ∈ productScope.table.entries := List.mem_singleton_self _
  have hnode : productAssignment ∈ (last productAssignment).nodes := List.mem_singleton_self _
  refine ⟨hsame, ?_, ?_⟩
  · intro hroundTrip
    have hagree := (productScope.scopeRoundTrips_iff hsame).mp hroundTrip
    exact absurd (hagree _ hentry _ hnode _ rfl) (by decide)
  · intro hroundTrip
    have hagree := (productScope.scopeRoundTrips_iff hsame).mp hroundTrip
    exact absurd (hagree _ hentry _ hnode _ rfl) (by decide)

end Builra.Macro.Serialization
