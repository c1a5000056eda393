import Builra.BuildSystem.BuildValue
import Builra.BuildSystem.FileSystem
import Builra.BuildSystem.Ownership
import Builra.Lib.Demand
import Builra.Lib.Digest

namespace Builra

/-!
# `BuildSystem.DirectoryTasks` — the tasks of nodes and directories

The tasks that `lookupRule` creates for nodes, stats, directory listings and directory signatures, as a system of
`Demand.Tasks`: what each requests at the start, what it does with a value it is given, and the value it completes
with. A failed assertion is a task that fails.

Keys and values are taken as decoded. Signatures are of any type, and the hash functions are given, so that they
can be ideal ones; `Value.eq_of_toData_eq` says that hashing the data of a value is as good as hashing the value.
Commands are not run here: their results are given.
-/

open FileSystem (Name Path slash)
open Ownership (NodeType)

namespace DirectoryTasks

variable {S : Type}

/-! ## Values -/

/-- `BuildValue` with what belongs to its kind, over any type of signatures. -/
inductive Value (S : Type) where
  | invalid
  | virtualInput
  | existingInput (outputInfo : FileInfo)
  | missingInput
  | directoryContents (directoryInfo : FileInfo) (filenames : List Name)
  | directoryTreeSignature (signature : S)
  | directoryTreeStructureSignature (signature : S)
  | staleFileRemoval (files : List Path)
  | missingOutput
  | failedInput
  | successfulCommand (outputInfos : List FileInfo)
  | failedCommand
  | propagatedFailureCommand
  | cancelledCommand
  | skippedCommand
  | target
  | filteredDirectoryContents (filenames : List Name)
  | successfulCommandWithOutputSignature (outputInfos : List FileInfo) (signature : S)
deriving DecidableEq

namespace Value

/-- `getOutputInfo`; none if the value has no output information or has several. -/
def getOutputInfo : Value S → Option FileInfo
  | existingInput info => some info
  | directoryContents info _ => some info
  | successfulCommand [info] => some info
  | successfulCommandWithOutputSignature [info] _ => some info
  | _ => none

/-- `getDirectoryContents`; none for a value of another kind. -/
def getDirectoryContents : Value S → Option (List Name)
  | directoryContents _ filenames => some filenames
  | filteredDirectoryContents filenames => some filenames
  | _ => none

def isDirectoryContents : Value S → Bool
  | directoryContents _ _ => true
  | _ => false

def isFilteredDirectoryContents : Value S → Bool
  | filteredDirectoryContents _ => true
  | _ => false

/-- `isExistingInput() && getOutputInfo().isDirectory()`. -/
def isExistingDirectory : Value S → Bool
  | existingInput info => info.isDirectory
  | _ => false

end Value

/-- The hash functions of the signatures. -/
structure TreeHash (S : Type) where
  /-- `hash_value` of a string. -/
  hashValue : List UInt8 → S
  /-- `hash_combine_range` over the data of a value. -/
  hashCombineRange : Value S → S
  /-- An integer as an argument of `hash_combine`. -/
  number : UInt64 → S
  hashCombine : S → S → S

/-! ## Nodes and commands -/

/-- `BuildNode`. -/
structure BuildNode extends Ownership.BuildNode where
  commandTimestamp : Bool := false
  mutated : Bool := false
  exclusionPatterns : List Name := []

def BuildNode.isDirectoryStructure (node : BuildNode) : Bool := node.type = .directoryStructure

variable (name : Name)

/-- `BuildSystemImpl::createNode`. -/
def createNode : BuildNode :=
  if name.getLast? = some slash then { type := .directory }
  else if name.head? = some '<'.toUInt8 ∧ name.getLast? = some '>'.toUInt8 then { type := .virtual }
  else { type := .plain }

theorem createNode_producers : (createNode name).producers = [] := by
  unfold createNode
  split
  · rfl
  · split <;> rfl

/-- The classes of commands, as far as `getResultForOutput` differs. -/
inductive CommandClass where
  | externalCommand
  | phonyCommand
  | symlinkCommand
  | staleFileRemovalCommand
deriving DecidableEq

structure Command where
  commandClass : CommandClass := .externalCommand
  outputs : List Name

/-- What the tasks read, apart from the file system. -/
structure Env (S : Type) where
  hash : TreeHash S
  /-- `filenameMatch` gives `MATCH`. -/
  filenameMatch : Name → Name → Bool
  /-- The nodes of the build description. -/
  nodes : Name → Option BuildNode
  commands : Name → Command
  chooseCommandFromMultipleProducers : Name → List Name → Option Name
  /-- The results of the commands. -/
  result : Name → Value S

/-- A build description that has no commands. -/
def Env.ofNodes (hash : TreeHash S) (filenameMatch : Name → Name → Bool) (nodes : Name → Option BuildNode) :
    Env S where
  hash := hash
  filenameMatch := filenameMatch
  nodes := nodes
  commands := fun _ => { outputs := [] }
  chooseCommandFromMultipleProducers := fun _ _ => none
  result := fun _ => .failedCommand

/-- `lookupNode`. -/
def Env.lookupNode (env : Env S) (name : Name) : BuildNode := (env.nodes name).getD (createNode name)

/-- The result says that the command did not succeed. -/
def isFailure : Value S → Bool
  | .failedCommand | .propagatedFailureCommand | .cancelledCommand => true
  | _ => false

local instance : LawfulBEq Name := inferInstance

/-- `ExternalCommand::getResultForOutput`. -/
def externalResultForOutput (outputs : List Name) (name : Name) (node : BuildNode) (value : Value S) :
    Option (Value S) :=
  match value with
  | .failedCommand | .propagatedFailureCommand | .cancelledCommand => some .failedInput
  | .skippedCommand => some .skippedCommand
  | .successfulCommand infos | .successfulCommandWithOutputSignature infos _ =>
    if node.isVirtual ∧ node.commandTimestamp = false then some .virtualInput
    else if name ∈ outputs then
      match infos[outputs.idxOf name]? with
      | none => none
      | some info => some (if info.isMissing then .missingOutput else .existingInput info)
    else none
  | _ => none

/-- `getResultForOutput` of each class of commands. -/
def Command.getResultForOutput (command : Command) (name : Name) (node : BuildNode) (value : Value S) :
    Option (Value S) :=
  match command.commandClass with
  | .externalCommand => externalResultForOutput command.outputs name node value
  | .phonyCommand =>
    if node.isVirtual ∧ node.commandTimestamp = false then some .virtualInput
    else externalResultForOutput command.outputs name node value
  | .symlinkCommand =>
    match value with
    | .failedCommand | .propagatedFailureCommand | .cancelledCommand => some .failedInput
    | .skippedCommand => some .skippedCommand
    | .successfulCommand infos | .successfulCommandWithOutputSignature infos _ =>
      match infos with
      | [info] => some (if info.isMissing then .missingOutput else .existingInput info)
      | _ => none
    | _ => none
  | .staleFileRemovalCommand =>
    match value with
    | .failedCommand | .propagatedFailureCommand | .cancelledCommand => some .failedInput
    | .skippedCommand => some .skippedCommand
    | _ => some value

/-! ## Keys, requests and states -/

/-- `BuildKey`, for the kinds that are requested here. -/
inductive Key where
  | node (name : Name)
  | stat (path : Path)
  | command (name : Name)
  | directoryContents (path : Path)
  | filteredDirectoryContents (path : Path) (filters : List Name)
  | directoryTreeSignature (path : Path) (filters : List Name)
  | directoryTreeStructureSignature (path : Path) (filters : List Name)
deriving DecidableEq

abbrev Request := Nat × Key

/-- The two tasks for signatures, which share most of their code. -/
inductive SignatureKind where
  | tree
  | treeStructure
deriving DecidableEq

/-- `SubpathInfo`. Data that was not provided yet is none. -/
structure SubpathInfo (S : Type) where
  filename : Name
  value : Option (Value S) := none
  directorySignatureValue : Option (Value S) := none

/-- The fields of `DirectoryTreeSignatureTask` and of `DirectoryTreeStructureSignatureTask`. -/
structure SignatureTask (S : Type) where
  kind : SignatureKind
  path : Path
  filters : List Name
  directoryValue : Option (Value S) := none
  childResults : List (SubpathInfo S) := []

/-- The fields of `DirectoryInputNodeTask`. -/
structure DirectoryInputNodeTask (S : Type) where
  name : Name
  directorySignature : Value S := .invalid
  totalBlockingDeps : Nat := 0
  finishedBlockingDeps : Nat := 0

/-- The fields of `ProducedNodeTask` and of `ProducedDirectoryNodeTask`; the last two are of the second only. -/
structure ProducedNodeTask (S : Type) where
  name : Name
  nodeResult : Value S := .invalid
  producingCommand : Option Name := none
  isInvalid : Bool := false
  directorySignature : Value S := .invalid
  returnDirectorySignature : Bool := false

/-- A task in progress. -/
inductive State (S : Type) where
  | virtualInputNode
  | fileInputNode (name : Name)
  | stat (path : Path)
  | command (name : Name)
  | directoryInputNode (task : DirectoryInputNodeTask S)
  | directoryStructureInputNode (directorySignature : Value S)
  | producedNode (task : ProducedNodeTask S)
  | producedDirectoryNode (task : ProducedNodeTask S)
  | directoryContents (path : Path) (directoryValue : Value S)
  | filteredDirectoryContents (path : Path) (filters : List Name) (directoryValue : Value S)
  | signature (task : SignatureTask S)

/-- The path of a node: its name without a slash at the end, unless it is nothing else. -/
def nodePath : Path :=
  if name.getLast? = some slash ∧ name ≠ [slash] then name.dropLast else name

/-! ## Listings -/

/-- `DirectoryContentsTask::getContents`; there are no symlinks. -/
def getContents (fs : FileSystem) (path : Path) : List Name :=
  (fs.directoryIterator path).mergeSort fun a b => decide (a ≤ b)

/-- `FilteredDirectoryContentsTask::getFilteredContents`. -/
def getFilteredContents (env : Env S) (fs : FileSystem) (path : Path) (filters : List Name) : List Name :=
  ((fs.directoryIterator path).filter fun filename =>
    !filters.any fun pattern => env.filenameMatch pattern filename).mergeSort fun a b => decide (a ≤ b)

/-! ## Signature tasks -/

namespace SignatureTask

/-- The key for the contents of the directory. -/
def contentsKey (path : Path) (filters : List Name) : Key :=
  if filters = [] then .directoryContents path else .filteredDirectoryContents path filters

/-- The key of a task for a signature. -/
def signatureKey (kind : SignatureKind) (path : Path) (filters : List Name) : Key :=
  match kind with
  | .tree => .directoryTreeSignature path filters
  | .treeStructure => .directoryTreeStructureSignature path filters

variable (task : SignatureTask S)

def childPath (filename : Name) : Path := FileSystem.append task.path filename

/-- The first value that the two tasks are given ends the requests (`some []`), gives the filenames to go on with,
    or violates the assertion. -/
def filenamesOf (kind : SignatureKind) (filters : List Name) (value : Value S) : Option (List Name) :=
  match kind with
  | .tree =>
    if (filters = [] ∧ value.isDirectoryContents = false) ∨
        (filters ≠ [] ∧ value.isFilteredDirectoryContents = false) then some []
    else value.getDirectoryContents
  | .treeStructure =>
    match value with
    | .missingInput | .skippedCommand => some []
    | _ => value.getDirectoryContents

/-- The requests for the nodes of the children. -/
def childRequests (filenames : List Name) : List Request :=
  filenames.mapIdx fun i filename => (1 + i, .node (task.childPath filename))

def provideValue (inputID : Nat) (value : Value S) :
    Option (SignatureTask S × List Request) :=
  let n := task.childResults.length
  if inputID = 0 then do
    let filenames ← filenamesOf task.kind task.filters value
    return ({ task with
        directoryValue := some value
        childResults := task.childResults ++ filenames.map fun filename => { filename := filename } },
      task.childRequests filenames)
  else if inputID < 1 + n then
    let index := inputID - 1
    match task.childResults[index]? with
    | none => none
    | some child =>
      some ({ task with childResults := task.childResults.set index { child with value := some value } },
        if value.isExistingDirectory then
          [(1 + n + index, signatureKey task.kind (task.childPath child.filename) task.filters)]
        else [])
  else
    let index := inputID - 1 - n
    match task.childResults[index]? with
    | none => none
    | some child =>
      some ({ task with
        childResults := task.childResults.set index { child with directorySignatureValue := some value } }, [])

/-- What stands for a signature that is not needed. -/
def nothing : UInt64 := 0xC183979C3E98722E

variable (hash : TreeHash S)

def combineSignature (code : S) (directorySignatureValue : Option (Value S)) : S :=
  match directorySignatureValue with
  | some data => hash.hashCombine code (hash.hashCombineRange data)
  | none => hash.hashCombine code (hash.number nothing)

/-- `DirectoryTreeSignatureTask::inputsAvailable`. Empty data is the data of the invalid value. -/
def treeSignature (task : SignatureTask S) : S :=
  let code := hash.hashValue task.path
  let code := hash.hashCombine code (hash.hashCombineRange (task.directoryValue.getD .invalid))
  task.childResults.foldl (fun code info =>
    combineSignature hash (hash.hashCombine code (hash.hashCombineRange (info.value.getD .invalid)))
      info.directorySignatureValue) code

/-- `DirectoryTreeStructureSignatureTask::inputsAvailable`. -/
def structureSignature (task : SignatureTask S) : S :=
  let code := hash.hashValue task.path
  let code := match task.directoryValue.getD .invalid with
    | .directoryContents directoryInfo _ => hash.hashCombine code (hash.number directoryInfo.mode)
    | value => hash.hashCombine code (hash.hashCombineRange value)
  task.childResults.foldl (fun code info =>
    let code := hash.hashCombine code (hash.hashValue info.filename)
    let code := match info.value.getD .invalid with
      | .existingInput outputInfo => hash.hashCombine code (hash.number outputInfo.mode)
      | value => hash.hashCombine code (hash.hashCombineRange value)
    combineSignature hash code info.directorySignatureValue) code

def inputsAvailable (task : SignatureTask S) : Value S :=
  match task.kind with
  | .tree => .directoryTreeSignature (task.treeSignature hash)
  | .treeStructure => .directoryTreeStructureSignature (task.structureSignature hash)

end SignatureTask

/-! ## All tasks -/

variable (env : Env S) (fs : FileSystem)

variable (name : Name)

/-- The command that a produced node asks for. -/
def getCommand : Option Name :=
  match (env.lookupNode name).producers with
  | [command] => some command
  | producers => env.chooseCommandFromMultipleProducers name producers

/-- `start` of the tasks for produced nodes. -/
def startProduced : ProducedNodeTask S × List Request :=
  match getCommand env name with
  | some command => ({ name := name, producingCommand := some command }, [(0, .command command)])
  | none => ({ name := name, isInvalid := true }, [])

/-- `DirectoryInputNodeTask::performUnblockedRequest`. -/
def performUnblockedRequest : List Request :=
  [(0, .directoryTreeSignature (nodePath name) (env.lookupNode name).exclusionPatterns)]

/-- `start` of the task that `lookupRule` creates for a node. -/
def startNode : State S × List Request :=
  let node := env.lookupNode name
  if node.producers = [] then
    if node.isVirtual then (.virtualInputNode, [])
    else if node.isDirectory then
      let paths := node.mustScanAfterPaths
      (.directoryInputNode { name := name, totalBlockingDeps := paths.length },
        if paths = [] then performUnblockedRequest env name
        else paths.mapIdx fun i path => (1 + i, .node path))
    else if node.isDirectoryStructure then
      (.directoryStructureInputNode .invalid,
        [(0, .directoryTreeStructureSignature (nodePath name) node.exclusionPatterns)])
    else (.fileInputNode name, [])
  else
    let start := startProduced env name
    (if node.isDirectory then .producedDirectoryNode start.1 else .producedNode start.1, start.2)

/-- `lookupRule`, with `start` of the task it creates. -/
def start : Key → State S × List Request
  | .node name => startNode env name
  -- a request that is made with `mustFollow`
  | .stat path => (.stat path, [(0, .node path)])
  | .command name => (.command name, [])
  | .directoryContents path => (.directoryContents path .invalid, [(0, .node path)])
  | .filteredDirectoryContents path filters =>
    (.filteredDirectoryContents path filters .invalid, [(0, .node path), (1, .stat path)])
  | .directoryTreeSignature path filters =>
    (.signature { kind := .tree, path := path, filters := filters },
      [(0, SignatureTask.contentsKey path filters)])
  | .directoryTreeStructureSignature path filters =>
    (.signature { kind := .treeStructure, path := path, filters := filters },
      [(0, SignatureTask.contentsKey path filters)])

/-- `provideValue` of each task. -/
def provideValue (state : State S) (inputID : Nat) (value : Value S) : Option (State S × List Request) :=
  match state with
  | .virtualInputNode | .fileInputNode _ | .stat _ | .command _ => some (state, [])
  | .directoryInputNode task =>
    if inputID = 0 then some (.directoryInputNode { task with directorySignature := value }, [])
    else
      let finishedBlockingDeps := task.finishedBlockingDeps + 1
      some (.directoryInputNode { task with finishedBlockingDeps := finishedBlockingDeps },
        if finishedBlockingDeps = task.totalBlockingDeps then performUnblockedRequest env task.name else [])
  | .directoryStructureInputNode _ => some (.directoryStructureInputNode value, [])
  | .producedNode task => do
    let command ← task.producingCommand
    let nodeResult ← (env.commands command).getResultForOutput task.name (env.lookupNode task.name) value
    return (.producedNode { task with nodeResult := nodeResult }, [])
  | .producedDirectoryNode task =>
    if inputID = 0 then do
      let command ← task.producingCommand
      let nodeResult ← (env.commands command).getResultForOutput task.name (env.lookupNode task.name) value
      match nodeResult with
      | .existingInput _ =>
        return (.producedDirectoryNode { task with nodeResult := nodeResult, returnDirectorySignature := true },
          [(1, .directoryTreeSignature (nodePath task.name) [])])
      | _ => return (.producedDirectoryNode { task with nodeResult := nodeResult }, [])
    else if inputID = 1 then some (.producedDirectoryNode { task with directorySignature := value }, [])
    else some (state, [])
  | .directoryContents path directoryValue =>
    some (.directoryContents path (if inputID = 0 then value else directoryValue), [])
  | .filteredDirectoryContents path filters directoryValue =>
    some (.filteredDirectoryContents path filters (if inputID = 1 then value else directoryValue), [])
  | .signature task => (task.provideValue inputID value).map fun next => (.signature next.1, next.2)

/-- The value for the information on a file. -/
def fileValue (info : FileInfo) : Value S := if info.isMissing then .missingInput else .existingInput info

/-- `inputsAvailable` of the tasks for produced nodes. -/
def ProducedNodeTask.inputsAvailable (task : ProducedNodeTask S) : Option (Value S) :=
  if task.isInvalid then some .failedInput
  else
    match task.nodeResult with
    | .invalid => none
    | nodeResult => some nodeResult

/-- `DirectoryContentsTask::inputsAvailable`. -/
def directoryContentsValue (path : Path) (directoryValue : Value S) : Option (Value S) :=
  match directoryValue with
  | .missingInput => some .missingInput
  | .missingOutput => some .missingInput
  | .failedInput => some .failedInput
  | .skippedCommand => some .skippedCommand
  | _ => directoryValue.getOutputInfo.map fun info => .directoryContents info (getContents fs path)

/-- `FilteredDirectoryContentsTask::inputsAvailable`. -/
def filteredDirectoryContentsValue (path : Path) (filters : List Name) (directoryValue : Value S) : Value S :=
  match directoryValue with
  | .missingInput => .missingInput
  | .existingInput info =>
    if info.isDirectory then .filteredDirectoryContents (getFilteredContents env fs path filters)
    else .existingInput info
  | _ => .failedInput

/-- `inputsAvailable` of each task. -/
def inputsAvailable : State S → Option (Value S)
  | .virtualInputNode => some .virtualInput
  | .fileInputNode name => some (fileValue (fs.getFileInfo (nodePath name)))
  | .stat path => some (fileValue (fs.getFileInfo path))
  | .command name => some (env.result name)
  | .directoryInputNode task => some task.directorySignature
  | .directoryStructureInputNode directorySignature => some directorySignature
  | .producedNode task => task.inputsAvailable
  | .producedDirectoryNode task =>
    if task.returnDirectorySignature then some task.directorySignature else task.inputsAvailable
  | .directoryContents path directoryValue => directoryContentsValue fs path directoryValue
  | .filteredDirectoryContents path filters directoryValue =>
    some (filteredDirectoryContentsValue env fs path filters directoryValue)
  | .signature task => some (task.inputsAvailable env.hash)

/-- The tasks of a build. -/
def tasks : Demand.Tasks Key Nat (Value S) (State S) where
  start := start env
  provideValue := provideValue env
  inputsAvailable := inputsAvailable env fs

end DirectoryTasks

end Builra
