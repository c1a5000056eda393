import Mathlib.Algebra.Group.Nat.Defs
import Mathlib.Logic.Function.Basic

namespace Builra

/-!
# `Core.Types` — the data model of `BuildEngineImpl`

The records `BuildEngine.cpp` keeps for rules, tasks and requests, with the field names of the source.
A `KeyID` is the address of the interned key string, so the model identifies it with the key itself;
`RuleInfo*` is the key of the rule and `Task*`/`TaskInfo*` is a fresh number (`TaskID`).

Timestamps (`Result::start`/`end`) are left out: nothing the engine decides reads them. The free list of
scan records is memory management; what matters of it is that `build()` deletes every block when it
returns, so a record pointer that survives a build dangles (`pendingScanRecord = none`).
-/

/-- `KeyType`: a `std::string` of arbitrary bytes. -/
abbrev KeyType := List UInt8

/-- `ValueType`: a `std::vector<uint8_t>`, of which the engine only tests equality. -/
abbrev ValueType := List UInt8

/-- `basic::CommandSignature`, as the 64-bit number it wraps. -/
abbrev CommandSignature := UInt64

/-- A build iteration. -/
abbrev Epoch := Nat

/-- The identity of a registered `Task` object. -/
abbrev TaskID := Nat

/-- The caller-chosen name of an input (`uintptr_t`). -/
abbrev InputID := Nat

/-- `BuildEngine::kMaximumInputID = ~(uintptr_t)0xFF`. -/
def kMaximumInputID : InputID := 2 ^ 64 - 1 - 0xFF

/-- `kMustFollowInputID = ~(uintptr_t)0`. -/
def kMustFollowInputID : InputID := 2 ^ 64 - 1

/-- One entry of a `DependencyKeyIDs` list (`KeyIDAndFlags`). -/
structure Dependency where
  keyID : KeyType
  orderOnly : Bool := false
  singleUse : Bool := false
deriving DecidableEq, Repr

/-- `DependencyKeyIDs::cleanSingleUseDependencies`. -/
def cleanSingleUseDependencies (dependencies : List Dependency) : List Dependency :=
  dependencies.filter (fun d => !d.singleUse)

/-- The stored result of a rule. -/
structure Result where
  value : ValueType := []
  signature : CommandSignature := 0
  computedAt : Epoch := 0
  builtAt : Epoch := 0
  dependencies : List Dependency := []
deriving DecidableEq, Repr

/-- `BuildEngineImpl::TaskInputRequest`; a dummy request has no requesting task. -/
structure TaskInputRequest where
  taskInfo : Option TaskID
  inputID : InputID
  inputRuleInfo : KeyType
  orderOnly : Bool := false
  forcePriorValue : Bool := false
  singleUse : Bool := false
deriving DecidableEq, Repr

/-- `BuildEngineImpl::RuleScanRequest`; `inputRuleInfo` caches the input the scan was deferred on. -/
structure RuleScanRequest where
  ruleInfo : KeyType
  inputIndex : Nat
  inputRuleInfo : Option KeyType
  orderOnly : Bool := false
  singleUse : Bool := false
deriving DecidableEq, Repr

variable (request : RuleScanRequest)

/-- The input of the request, looked up in the dependency list of its rule. -/
def RuleScanRequest.lookup (d : Dependency) : RuleScanRequest :=
  { request with inputRuleInfo := some d.keyID, orderOnly := d.orderOnly, singleUse := d.singleUse }

/-- The request for the next input. -/
def RuleScanRequest.next : RuleScanRequest :=
  { ruleInfo := request.ruleInfo, inputIndex := request.inputIndex + 1, inputRuleInfo := none }

/-- `BuildEngineImpl::RuleScanRecord`. -/
structure RuleScanRecord where
  pausedInputRequests : List TaskInputRequest := []
  deferredScanRequests : List RuleScanRequest := []
deriving DecidableEq, Repr

/-- `RuleInfo::StateKind`. -/
inductive StateKind where
  | incomplete
  | isScanning
  | needsToRun
  | doesNotNeedToRun
  | inProgressWaiting
  | inProgressComputing
  | complete
deriving DecidableEq, Repr

/-- `int(state) > int(StateKind::IsScanning)`. -/
def StateKind.pastScanning : StateKind → Bool
  | .incomplete | .isScanning => false
  | _ => true

/-- `BuildEngineImpl::RuleInfo`. The union `inProgressInfo` is kept as its two members. -/
structure RuleInfo where
  pendingScanRecord : Option RuleScanRecord := none
  pendingTaskInfo : Option TaskID := none
  result : Result := {}
  state : StateKind := .incomplete
  wasForced : Bool := false
deriving DecidableEq, Repr

namespace RuleInfo

variable (r : RuleInfo)

def isScanning : Bool := r.state = .isScanning

variable (currentEpoch : Epoch)

def isComplete : Bool :=
  r.state = .complete && r.result.builtAt = currentEpoch

/-- A complete rule counts as scanned only in the epoch it was built in: the lazy reset of `builtAt`. -/
def isScanned : Bool :=
  if r.state = .complete then r.isComplete currentEpoch else r.state.pastScanning

def isInProgressWaiting : Bool := r.state = .inProgressWaiting

def isInProgressComputing : Bool := r.state = .inProgressComputing

def isInProgress : Bool := r.isInProgressWaiting || r.isInProgressComputing

def setComplete : RuleInfo :=
  { r with state := .complete, result := { r.result with builtAt := currentEpoch } }

/-- Only the state is reset; value, `builtAt`, signature and dependencies stay. -/
def setCancelled : RuleInfo := { r with state := .incomplete }

end RuleInfo

/-- `BuildEngineImpl::TaskInfo`; `T` is the client's task object. -/
structure TaskInfo (T : Type) where
  task : T
  requestedBy : List TaskInputRequest := []
  deferredScanRequests : List RuleScanRequest := []
  forRuleInfo : KeyType
  waitCount : Nat := 0
  discoveredDependencies : List Dependency := []

/-! ## The client: rules, tasks and the delegate -/

inductive Rule.StatusKind where
  | isScanning
  | isUpToDate
  | isComplete
deriving DecidableEq, Repr

inductive Rule.CycleAction where
  | forceBuild
  | supplyPriorValue
deriving DecidableEq, Repr

inductive Rule.RunReason where
  | neverBuilt
  | signatureChanged
  | invalidValue
  | inputRebuilt
  | forced
deriving DecidableEq, Repr

/-- A call a task makes through its `TaskInterface` while the engine is inside one of its callbacks. -/
inductive TaskCall where
  | request (key : KeyType) (inputID : InputID)
  | requestSingleUse (key : KeyType) (inputID : InputID)
  | mustFollow (key : KeyType)
  | discoveredDependency (key : KeyType)
  | complete (value : ValueType) (forceChange : Bool)
deriving DecidableEq, Repr

/-- The client of the engine: the rules its delegate looks up, their tasks, the delegate's answers and the
    outcome of database writes (`setRuleResultError`, none for success). Every callback may read the external state `W`, which the engine does not
    control; `T` is the state of a task object. `result` is the value a computing task completes with when
    it behaves as a function of what it was given (the engine never calls it). -/
structure Client (T W : Type) where
  signature : KeyType → CommandSignature
  isResultValid : W → KeyType → ValueType → Bool
  createTask : W → KeyType → T
  start : W → T → T × List TaskCall
  providePriorValue : W → T → ValueType → T × List TaskCall
  provideValue : W → T → InputID → KeyType → ValueType → T × List TaskCall
  inputsAvailable : W → T → T
  result : W → T → ValueType
  shouldResolveCycle : W → List KeyType → KeyType → Rule.CycleAction → Bool
  setRuleResultError : W → KeyType → Option String

/-- What the engine tells its client and its trace, newest first. -/
inductive Event where
  | updateStatus (rule : KeyType) (status : Rule.StatusKind)
  | determinedRuleNeedsToRun (rule : KeyType) (reason : Rule.RunReason) (inputRule : Option KeyType)
  | createdTaskForRule (task : TaskID) (rule : KeyType)
  | requestedInput (request : TaskInputRequest)
  | providedPriorValue (task : TaskID) (value : ValueType)
  | completedTaskInputRequest (request : TaskInputRequest) (value : ValueType)
  | inputsAvailable (task : TaskID)
  | cycleDetected (items : List KeyType)
  | error (message : String)
deriving DecidableEq, Repr

/-- The contents of an attached build database. -/
structure BuildDB where
  results : KeyType → Option Result := fun _ => none
  iteration : Epoch := 0

/-- `BuildEngineImpl`. Vectors used as stacks are stored top first.

    `ruleInfos` is total: a key reads as the entry `getRuleInfoForKey` would create for it, with the stored
    result of the database the engine was attached to. `ruleKeys` lists the entries that were ever written;
    an entry nothing wrote to cannot be told from an absent one. -/
structure Engine (T : Type) where
  currentEpoch : Epoch := 0
  buildCancelled : Bool := false
  inputRequests : List TaskInputRequest := []
  finishedInputRequests : List TaskInputRequest := []
  ruleInfosToScan : List RuleScanRequest := []
  ruleKeys : List KeyType := []
  ruleInfos : KeyType → RuleInfo := fun _ => {}
  nextTask : TaskID := 0
  taskInfos : TaskID → Option (TaskInfo T) := fun _ => none
  readyTaskInfos : List TaskID := []
  numOutstandingUnfinishedTasks : Nat := 0
  finishedTaskInfos : List TaskID := []
  db : Option BuildDB := none
  events : List Event := []
  /-- Set when the source would touch freed memory or call `abort()`. -/
  trapped : Bool := false

end Builra
