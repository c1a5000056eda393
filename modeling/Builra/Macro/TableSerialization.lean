import Builra.Lib.TokenStream
import Builra.Macro.Scope

namespace Builra.Macro.Serialization

/-!
# `Macro.TableSerialization` — tables and scopes as serialized data

The types here are those of `Macro.Scope` with what is serialized of them: the class of an expression and the
interned location of an assignment. An expression that was deserialized was not parsed, so nothing is said of
its program. Macros and condition parameters are written by name and looked up, or declared, in the namespace
of the deserializer's delegate. The path of a location is written as its index in the path table of the
process.
-/

open TokenStream

/-- What the calls of a serializer write, and those of a deserializer read. -/
inductive Item where
  | integer (value : Int)
  | uint (value : Nat)
  | boolean (value : Bool)
  | string (value : Text)
  | nil
  /-- The start of an aggregate or of an array; nothing is written at its end. -/
  | beginAggregate (count : Nat)
deriving DecidableEq

inductive DeserializerError where
  | incorrectType (message : Text)
  | deserializationFailed (message : Text)
deriving DecidableEq

/-- How deserializing ends without a value. -/
inductive Failure where
  | thrown (error : DeserializerError)
  /-- A precondition is violated. -/
  | trap
deriving DecidableEq

/-! ## Expressions, assignments and locations -/

/-- The classes of `MacroExpression.implementations`. -/
inductive ExpressionClass where
  | macroExpression
  | macroStringExpression
  | macroStringListExpression
deriving DecidableEq

structure MacroExpression where
  type : ExpressionClass
  stringRep : Text
  evalProgram : MacroEvaluationProgram
deriving DecidableEq

structure MacroValueAssignmentLocation where
  path : Text
  startLine : Int
  endLine : Int
  startColumn : Int
  endColumn : Int
deriving DecidableEq

/-- A location whose path is an index into `macroConfigPaths`. -/
structure InternedMacroValueAssignmentLocation where
  pathRef : Int
  startLine : Int
  endLine : Int
  startColumn : Int
  endColumn : Int
deriving DecidableEq

/-- An assignment without its `next`. -/
structure AssignmentNode where
  expression : MacroExpression
  conditions : Option (List MacroCondition)
  location : Option InternedMacroValueAssignmentLocation
deriving DecidableEq

/-- An assignment with those of lower precedence. -/
inductive MacroValueAssignment where
  | last (node : AssignmentNode)
  | followedBy (node : AssignmentNode) (next : MacroValueAssignment)

def MacroValueAssignment.nodes : MacroValueAssignment → List AssignmentNode
  | last node => [node]
  | followedBy node next => node :: next.nodes

abbrev MacroValueAssignmentTable := AList fun _ : MacroDeclaration => MacroValueAssignment

structure MacroEvaluationScope where
  table : MacroValueAssignmentTable
  conditionParameterValues : AList fun _ : MacroConditionParameter => List Text

/-! ## The path table of a process -/

/-- `macroConfigPaths`, an ordered set. -/
abbrev MacroConfigPaths := List Text

namespace MacroConfigPaths

/-- The subscript; none where it traps. -/
def subscript (paths : MacroConfigPaths) (i : Int) : Option Text := if i < 0 then none else paths[i.toNat]?

end MacroConfigPaths

/-- The location in a process with these paths; none where it traps. -/
def InternedMacroValueAssignmentLocation.location (paths : MacroConfigPaths)
    (interned : InternedMacroValueAssignmentLocation) : Option MacroValueAssignmentLocation := do
  let path ← paths.subscript interned.pathRef
  return ⟨path, interned.startLine, interned.endLine, interned.startColumn, interned.endColumn⟩

/-! ## The namespace of the delegate -/

/-- A namespace with its condition parameters. New objects get the next identity. -/
structure DelegateNamespace where
  macroNamespace : MacroNamespace
  /-- The parameters declared in the namespace itself. -/
  conditionParameters : List MacroConditionParameter
  /-- Those of its parent and the parent's ancestors, the nearest first. -/
  parentParameters : List (List MacroConditionParameter)
  nextIdentity : Nat

/-- A declaration added to the registry of the namespace itself. -/
def registerMacro (decl : MacroDeclaration) : MacroNamespace → MacroNamespace
  | .root macroRegistry => .root (decl :: macroRegistry)
  | .child macroRegistry parentNamespace => .child (decl :: macroRegistry) parentNamespace

/-- A parameter by its name, in the namespace or else in its ancestors. -/
def DelegateNamespace.lookupConditionParameter (fns : MatchFunctions) (name : Text) (ns : DelegateNamespace) :
    Option MacroConditionParameter :=
  (ns.conditionParameters :: ns.parentParameters).findSome? fun registry =>
    registry.find? fun parameter => fns.sameString parameter.name name

/-! ## The calls of the deserializer -/

abbrev Deserializer := Reader Item DelegateNamespace Failure

def throwIncorrectType {α : Type} (message : Text) : Deserializer α := throw (.thrown (.incorrectType message))

def throwFailed {α : Type} (message : Text) : Deserializer α := throw (.thrown (.deserializationFailed message))

def deserializeInteger : Deserializer Int :=
  next (fun | .integer value => some value | _ => none)
    (.thrown (.incorrectType (text "Could not decode an Int64.")))

def deserializeUInt : Deserializer Nat :=
  next (fun | .uint value => some value | _ => none)
    (.thrown (.incorrectType (text "Could not decode a UInt64.")))

def deserializeBoolean : Deserializer Bool :=
  next (fun | .boolean value => some value | _ => none)
    (.thrown (.incorrectType (text "Could not decode a Boolean")))

def deserializeString : Deserializer Text :=
  next (fun | .string value => some value | _ => none)
    (.thrown (.incorrectType (text "Could not decode a String")))

def deserializeNil : Deserializer Bool := skip .nil

/-- A number as the source's messages show it. -/
def decimal (n : Int) : Text := text (toString n)

def beginAggregate : Deserializer Nat :=
  next (fun | .beginAggregate count => some count | _ => none)
    (.thrown (.incorrectType (text "Could not decode an aggregate element.")))

def beginAggregateOf (expectedCount : Nat) : Deserializer Unit := do
  let count ← beginAggregate
  if count ≠ expectedCount then
    throwFailed (text "Unexpected count '" ++ decimal count ++ text "' for aggregate element (expected '"
      ++ decimal expectedCount ++ text "').")

/-- An array; whatever is thrown inside it, this is thrown. -/
def deserializeArray {α : Type} (read : Deserializer α) : Deserializer (List α) := fun state =>
  let array : Deserializer (List α) := do
    let count ← beginAggregate
    times read count
  match array.run state with
  | .error (.thrown _) => .error (.thrown (.deserializationFailed (text "Could not deserialize an Array.")))
  | result => result

def serializeArray {α : Type} (write : α → List Item) (array : List α) : List Item :=
  .beginAggregate array.length :: array.flatMap write

def serializeOptional {α : Type} (write : α → List Item) : Option α → List Item
  | none => [.nil]
  | some a => write a

def deserializeOptional {α : Type} (read : Deserializer α) : Deserializer (Option α) := optional .nil read

/-! ## Programs -/

namespace Retrieval

/-- `rawValue`. -/
def rawValue : MacroEvaluationRetrievalOperator → Int
  | .quote => 0
  | .upper => 1
  | .lower => 2
  | .identifier => 3
  | .rfc1034identifier => 4
  | .c99extidentifier => 5
  | .md5 => 6
  | .stripslash => 7
  | .dir => 8
  | .file => 9
  | .base => 10
  | .suffix => 11
  | .standardizepath => 12
  | .not => 13

/-- `init?(rawValue:)`. -/
def ofRawValue : Int → Option MacroEvaluationRetrievalOperator
  | 0 => some .quote
  | 1 => some .upper
  | 2 => some .lower
  | 3 => some .identifier
  | 4 => some .rfc1034identifier
  | 5 => some .c99extidentifier
  | 6 => some .md5
  | 7 => some .stripslash
  | 8 => some .dir
  | 9 => some .file
  | 10 => some .base
  | 11 => some .suffix
  | 12 => some .standardizepath
  | 13 => some .not
  | _ => none

end Retrieval

namespace Replacement

/-- `rawValue`. -/
def rawValue : MacroEvaluationReplacementOperator → Int
  | .dir => 0
  | .file => 1
  | .base => 2
  | .suffix => 3
  | .default => 4
  | .relativeto => 5
  | .isancestor => 6

/-- `init?(rawValue:)`. -/
def ofRawValue : Int → Option MacroEvaluationReplacementOperator
  | 0 => some .dir
  | 1 => some .file
  | 2 => some .base
  | 3 => some .suffix
  | 4 => some .default
  | 5 => some .relativeto
  | 6 => some .isancestor
  | _ => none

end Replacement

def serializeInstr (instr : EvalInstr) : List Item :=
  .beginAggregate 2 ::
    match instr with
    | .appendLiteral string => [.integer 0, .string string]
    | .appendStringFormOnlyLiteral string => [.integer 1, .string string]
    | .setNeedsListSeparator string => [.integer 2, .string string]
    | .beginSubresult => [.integer 3, .nil]
    | .evalNamedMacro asString preservesOriginal => [.integer (if preservesOriginal then 5 else 4), .boolean asString]
    | .mergeSubresult => [.integer 6, .nil]
    | .applyRetrievalOperator op => [.integer 7, .integer (Retrieval.rawValue op)]
    | .applyReplacementOperator op => [.integer 8, .integer (Replacement.rawValue op)]

/-- An instruction without an associated value. -/
def deserializeNoValue {α : Type} (a : α) (message : Text) : Deserializer α := do
  if ← deserializeNil then return a else throwFailed message

/-- An operator by its raw value. -/
def deserializeOperator {α : Type} (ofRawValue : Int → Option α) (instrName : Text) : Deserializer α := do
  let opVal ← deserializeInteger
  match ofRawValue opVal with
  | some op => return op
  | none => throwFailed (text "Unexpected value '" ++ decimal opVal ++ text "' for EvalInstr." ++ instrName)

def deserializeInstr : Deserializer EvalInstr := do
  beginAggregateOf 2
  let code ← deserializeInteger
  match code with
  | 0 => .appendLiteral <$> deserializeString
  | 1 => .appendStringFormOnlyLiteral <$> deserializeString
  | 2 => .setNeedsListSeparator <$> deserializeString
  | 3 => deserializeNoValue .beginSubresult (text "Unexpected associated value for EvalInstr.beginSubresult.")
  | 4 => (.evalNamedMacro · false) <$> deserializeBoolean
  | 5 => (.evalNamedMacro · true) <$> deserializeBoolean
  | 6 => deserializeNoValue .mergeSubresult (text "Unexpected associated value for EvalInstr.mergeSubresult.")
  | 7 => .applyRetrievalOperator <$> deserializeOperator Retrieval.ofRawValue (text "applyRetrievalOperator")
  | 8 => .applyReplacementOperator <$> deserializeOperator Replacement.ofRawValue (text "applyReplacementOperator")
  | _ => throwIncorrectType (text "Unexpected type code for EvalInstr: " ++ decimal code)

def serializeProgram (program : MacroEvaluationProgram) : List Item :=
  .beginAggregate 2 ::
    match program with
    | .empty => [.integer 0, .nil]
    | .literal string => [.integer 1, .string string]
    | .instructions instructions => .integer 2 :: serializeArray serializeInstr instructions

def deserializeProgram : Deserializer MacroEvaluationProgram := do
  beginAggregateOf 2
  let code ← deserializeInteger
  match code with
  -- The message is that of the instruction, as in the source.
  | 0 => deserializeNoValue .empty (text "Unexpected associated value for EvalInstr.beginSubresult.")
  | 1 => .literal <$> deserializeString
  | 2 => .instructions <$> deserializeArray deserializeInstr
  | _ => throwIncorrectType (text "Unexpected type code for EvalInstr: " ++ decimal code)

/-! ## Expressions -/

def ExpressionClass.serializableTypeCode : ExpressionClass → Nat
  | .macroExpression => 0
  | .macroStringExpression => 1
  | .macroStringListExpression => 2

def ExpressionClass.classForCode : Nat → Option ExpressionClass
  | 0 => some .macroExpression
  | 1 => some .macroStringExpression
  | 2 => some .macroStringListExpression
  | _ => none

/-- A `MacroExpression` inside its `PolymorphicSerializableWrapper`. -/
def serializeExpression (expression : MacroExpression) : List Item :=
  [.beginAggregate 2, .uint expression.type.serializableTypeCode, .beginAggregate 2, .string expression.stringRep]
    ++ serializeProgram expression.evalProgram

def deserializeExpression : Deserializer MacroExpression := do
  beginAggregateOf 2
  let code ← deserializeUInt
  match ExpressionClass.classForCode code with
  | none =>
    throwIncorrectType (text "Unexpected serializable type code for concrete 'MacroExpression.Type': "
      ++ decimal code)
  | some type =>
    beginAggregateOf 2
    let stringRep ← deserializeString
    let evalProgram ← deserializeProgram
    return ⟨type, stringRep, evalProgram⟩

/-! ## Locations -/

def serializeLocation (interned : InternedMacroValueAssignmentLocation) : List Item :=
  [.beginAggregate 5, .integer interned.pathRef, .integer interned.startLine, .integer interned.endLine,
    .integer interned.startColumn, .integer interned.endColumn]

def deserializeLocation : Deserializer InternedMacroValueAssignmentLocation := do
  beginAggregateOf 5
  let pathRef ← deserializeInteger
  let startLine ← deserializeInteger
  let endLine ← deserializeInteger
  let startColumn ← deserializeInteger
  let endColumn ← deserializeInteger
  return ⟨pathRef, startLine, endLine, startColumn, endColumn⟩

section Namespaces

variable (fns : MatchFunctions)

/-! ## Conditions -/

/-- A condition parameter is looked up by its name, or declared. -/
def lookupOrDeclareConditionParameter (name : Text) : Deserializer MacroConditionParameter := do
  let (items, ns) ← get
  if name = [] then throw .trap
  match ns.lookupConditionParameter fns name with
  | some parameter => return parameter
  | none =>
    let parameter : MacroConditionParameter := ⟨ns.nextIdentity, name⟩
    set (items, { ns with
      conditionParameters := parameter :: ns.conditionParameters
      nextIdentity := ns.nextIdentity + 1 })
    return parameter

def serializeCondition (condition : MacroCondition) : List Item :=
  [.beginAggregate 2, .string condition.parameter.name, .string condition.valuePattern]

def deserializeCondition : Deserializer MacroCondition := do
  beginAggregateOf 2
  let parmName ← deserializeString
  let parameter ← lookupOrDeclareConditionParameter fns parmName
  let valuePattern ← deserializeString
  return ⟨parameter, valuePattern⟩

def serializeConditionSet (conditions : List MacroCondition) : List Item :=
  .beginAggregate 1 :: serializeArray serializeCondition conditions

def deserializeConditionSet : Deserializer (List MacroCondition) := do
  beginAggregateOf 1
  deserializeArray (deserializeCondition fns)

/-! ## Assignments -/

/-- An assignment around its serialized `next`. -/
def serializeNode (node : AssignmentNode) (next : List Item) : List Item :=
  .beginAggregate 4 :: serializeExpression node.expression ++ serializeOptional serializeConditionSet node.conditions
    ++ next ++ serializeOptional serializeLocation node.location

def serializeAssignment : MacroValueAssignment → List Item
  | .last node => serializeNode node [.nil]
  | .followedBy node next => serializeNode node (serializeAssignment next)

/-- An assignment, by how a `next` is read. -/
def deserializeNode (deserializeNext : Deserializer MacroValueAssignment) : Deserializer MacroValueAssignment := do
  beginAggregateOf 4
  let expression ← deserializeExpression
  let conditions ← deserializeOptional (deserializeConditionSet fns)
  let next ← deserializeOptional deserializeNext
  let location ← deserializeOptional deserializeLocation
  match next with
  | none => return .last ⟨expression, conditions, location⟩
  | some next => return .followedBy ⟨expression, conditions, location⟩ next

/-- A linked list of at most `limit` assignments. -/
def deserializeLinked : Nat → Deserializer MacroValueAssignment
  -- No item is left here, so the next aggregate cannot be read.
  | 0 => throwIncorrectType (text "Could not decode an aggregate element.")
  | limit + 1 => deserializeNode fns (deserializeLinked limit)

/-- Every assignment takes an item, so there are at most as many as items are left. -/
def deserializeAssignment : Deserializer MacroValueAssignment := do
  let (items, _) ← get
  deserializeLinked fns items.length

/-! ## Tables -/

def typeCode : MacroType → Int
  | .boolean => 0
  | .string => 1
  | .stringList => 2
  | .userDefined => 3
  | .path => 4
  | .pathList => 5

def typeForCode : Int → Option MacroType
  | 0 => some .boolean
  | 1 => some .string
  | 2 => some .stringList
  | 3 => some .userDefined
  | 4 => some .path
  | 5 => some .pathList
  | _ => none

/-- The name of a case, as an interpolated string shows it. -/
def typeName : MacroType → Text
  | .boolean => text "boolean"
  | .string => text "string"
  | .stringList => text "stringList"
  | .userDefined => text "userDefined"
  | .path => text "path"
  | .pathList => text "pathList"

/-- A macro is looked up by its name, or declared with the type of the code. -/
def lookupOrDeclareMacro (name : Text) (code : Int) : Deserializer MacroDeclaration := do
  let (items, ns) ← get
  if hname : name = [] then throw .trap
  else
    match typeForCode code with
    | none =>
      throwFailed (text "Unrecognized code for MacroType for MacroDeclaration " ++ name ++ text ": " ++ decimal code)
    | some type =>
      match ns.macroNamespace.lookupMacroDeclaration fns name with
      | some decl =>
        if decl.type ≠ type then
          throwIncorrectType (text "Mismatched type for MacroDeclaration " ++ name ++ text ": expected '"
            ++ typeName type ++ text "', found '" ++ typeName decl.type ++ text "' from code '" ++ decimal code
            ++ text "'.")
        return decl
      | none =>
        let decl : MacroDeclaration := ⟨ns.nextIdentity, name, type, hname⟩
        set (items, { ns with
          macroNamespace := registerMacro decl ns.macroNamespace
          nextIdentity := ns.nextIdentity + 1 })
        return decl

variable (precedes : Text → Text → Bool)

/-- `sorted(by:)` on the names of the keys, where `precedes` is the order of strings. -/
def sortedByName {κ ν : Type} (name : κ → Text) (dict : AList fun _ : κ => ν) : List (Sigma fun _ : κ => ν) :=
  dict.entries.mergeSort fun entry entry' => !precedes (name entry'.1) (name entry.1)

def serializeEntry (entry : Sigma fun _ : MacroDeclaration => MacroValueAssignment) : List Item :=
  [.beginAggregate 2, .beginAggregate 2, .string entry.1.name, .integer (typeCode entry.1.type)]
    ++ serializeAssignment entry.2

def serializeTable (table : MacroValueAssignmentTable) : List Item :=
  [.beginAggregate 1, .beginAggregate table.entries.length]
    ++ (sortedByName precedes MacroDeclaration.name table).flatMap serializeEntry

def deserializeEntry : Deserializer (MacroDeclaration × MacroValueAssignment) := do
  beginAggregateOf 2
  beginAggregateOf 2
  let name ← deserializeString
  let typeCode ← deserializeInteger
  let decl ← lookupOrDeclareMacro fns name typeCode
  let asgn ← deserializeAssignment fns
  return (decl, asgn)

def deserializeTable : Deserializer MacroValueAssignmentTable := do
  beginAggregateOf 1
  let count ← beginAggregate
  let entries ← times (deserializeEntry fns) count
  return dictionary entries

/-! ## Scopes -/

def serializeParameterValues (entry : Sigma fun _ : MacroConditionParameter => List Text) : List Item :=
  [.beginAggregate 2, .string entry.1.name] ++ serializeArray (fun value => [Item.string value]) entry.2

def serializeScope (scope : MacroEvaluationScope) : List Item :=
  .beginAggregate 2 :: serializeTable precedes scope.table
    ++ .beginAggregate scope.conditionParameterValues.entries.length ::
      (sortedByName precedes MacroConditionParameter.name scope.conditionParameterValues).flatMap
        serializeParameterValues

def deserializeParameterValues : Deserializer (MacroConditionParameter × List Text) := do
  beginAggregateOf 2
  let parmName ← deserializeString
  let parm ← lookupOrDeclareConditionParameter fns parmName
  let values ← deserializeArray deserializeString
  return (parm, values)

def deserializeScope : Deserializer MacroEvaluationScope := do
  beginAggregateOf 2
  let table ← deserializeTable fns
  let count ← beginAggregate
  let entries ← times (deserializeParameterValues fns) count
  return ⟨table, dictionary entries⟩

end Namespaces

end Builra.Macro.Serialization
