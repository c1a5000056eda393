import Builra.Core.Types

namespace Builra

/-!
# `Core.Engine` — the operations of `BuildEngineImpl`

Each definition is the member function of the same name. Asserts are not modelled (a release build has
none); `Engine.trap` marks what is undefined in the source whatever the build: `abort()` and reads through
a scan record whose block was deleted.
-/

variable {T W : Type}

namespace Engine

/-! ## Access to the rule and task tables -/

variable (e : Engine T)

variable (k : KeyType)

/-- Write to the entry of a rule (`getRuleInfoForKey` creates it on first use). -/
def modifyRule (f : RuleInfo → RuleInfo) : Engine T :=
  { e with
    ruleKeys := e.ruleKeys.insert k
    ruleInfos := Function.update e.ruleInfos k (f (e.ruleInfos k)) }

variable (t : TaskID)

variable (f : TaskInfo T → TaskInfo T)

def modifyTask : Engine T :=
  { e with taskInfos := Function.update e.taskInfos t ((e.taskInfos t).map f) }

def emit (event : Event) : Engine T := { e with events := event :: e.events }

def trap : Engine T := { e with trapped := true }

/-- `delegate.error(message); buildCancelled = true`. -/
def error (message : String) : Engine T :=
  { e with events := .error message :: e.events, buildCancelled := true }

/-! ## Scanning and demanding a rule -/

/-- The fresh part of `scanRule`: the rule is neither scanned nor being scanned. -/
def startScan (c : Client T W) (w : W) (e : Engine T) (k : KeyType) : Engine T × Bool :=
  let e := e.modifyRule k (fun r =>
    { r with
      result := { r.result with dependencies := cleanSingleUseDependencies r.result.dependencies }
      wasForced := false })
  let e := e.emit (.updateStatus k .isScanning)
  let needsToRun (reason : Rule.RunReason) : Engine T × Bool :=
    ((e.modifyRule k (fun r => { r with state := .needsToRun })).emit
      (.determinedRuleNeedsToRun k reason none), true)
  let result := (e.ruleInfos k).result
  if result.builtAt = 0 then
    needsToRun .neverBuilt
  else if c.signature k ≠ result.signature then
    needsToRun .signatureChanged
  else if !c.isResultValid w k result.value then
    needsToRun .invalidValue
  else if result.dependencies.isEmpty then
    (e.modifyRule k (fun r => { r with state := .doesNotNeedToRun }), true)
  else
    let e := e.modifyRule k (fun r => { r with state := .isScanning, pendingScanRecord := some {} })
    ({ e with ruleInfosToScan :=
        { ruleInfo := k, inputIndex := 0, inputRuleInfo := none } :: e.ruleInfosToScan }, false)

/-- `scanRule`: true if the rule is already scanned. -/
def scanRule (c : Client T W) (w : W) (e : Engine T) (k : KeyType) : Engine T × Bool :=
  if (e.ruleInfos k).isScanned e.currentEpoch then (e, true)
  else if (e.ruleInfos k).isScanning then (e, false)
  else e.startScan c w k

variable (request : TaskInputRequest)

/-- Queue an input request and count it. -/
def enqueueRequest : Engine T :=
  let e := { e with inputRequests := e.inputRequests ++ [request] }
  (e.modifyTask t (fun ti => { ti with waitCount := ti.waitCount + 1 })).emit (.requestedInput request)

/-- `addTaskInputRequest`. -/
def addTaskInputRequest (key : KeyType) (inputID : InputID)
    (orderOnly singleUse : Bool) : Engine T :=
  match e.taskInfos t with
  | none => e.trap
  | some taskInfo =>
    if (e.ruleInfos taskInfo.forRuleInfo).isInProgressWaiting then
      e.enqueueRequest t
        { taskInfo := some t, inputID := inputID, inputRuleInfo := key, orderOnly := orderOnly,
          singleUse := singleUse }
    else e.trap

/-- `taskDiscoveredDependency`. -/
def taskDiscoveredDependency (key : KeyType) : Engine T :=
  match e.taskInfos t with
  | none => e.trap
  | some taskInfo =>
    if (e.ruleInfos taskInfo.forRuleInfo).isInProgressComputing then
      e.modifyTask t (fun ti =>
        { ti with discoveredDependencies := ti.discoveredDependencies ++ [{ keyID := key }] })
    else e.error "invalid state for adding discovered dependency"

/-- The result `taskIsComplete` stores: the signature always, value and `computedAt` on a change. -/
def storeValue (signature : CommandSignature) (currentEpoch : Epoch) (value : ValueType)
    (forceChange : Bool) (result : Result) : Result :=
  let result := { result with signature := signature }
  if !forceChange && value = result.value then result
  else { result with value := value, computedAt := currentEpoch }

/-- `taskIsComplete`. -/
def taskIsComplete (c : Client T W) (e : Engine T) (t : TaskID) (value : ValueType)
    (forceChange : Bool) : Engine T :=
  match e.taskInfos t with
  | none => e.trap
  | some taskInfo =>
    if (e.ruleInfos taskInfo.forRuleInfo).isInProgressComputing then
      let e := e.modifyRule taskInfo.forRuleInfo (fun r =>
        { r with result :=
            storeValue (c.signature taskInfo.forRuleInfo) e.currentEpoch value forceChange r.result })
      { e with finishedTaskInfos := t :: e.finishedTaskInfos }
    else e.error "invalid state for marking task complete"

/-- One call through the `TaskInterface` of task `t`. -/
def taskCall (c : Client T W) (t : TaskID) (e : Engine T) : TaskCall → Engine T
  | .request key inputID =>
    if inputID > kMaximumInputID then e.error "attempt to use reserved input ID"
    else e.addTaskInputRequest t key inputID false false
  | .requestSingleUse key inputID =>
    if inputID > kMaximumInputID then e.error "attempt to use reserved input ID"
    else e.addTaskInputRequest t key inputID false true
  | .mustFollow key => e.addTaskInputRequest t key kMustFollowInputID true false
  | .discoveredDependency key => e.taskDiscoveredDependency t key
  | .complete value forceChange => e.taskIsComplete c t value forceChange

/-- Run a callback of task `t`: its object changes and the calls it makes are carried out in order. -/
def callback (c : Client T W) (e : Engine T) (t : TaskID) (f : T → T × List TaskCall) : Engine T :=
  match e.taskInfos t with
  | none => e.trap
  | some taskInfo =>
    let (task, calls) := f taskInfo.task
    calls.foldl (taskCall c t) (e.modifyTask t (fun ti => { ti with task := task }))

/-- The engine's part of starting a rule: register a fresh task and reset the recorded dependencies. -/
def registerTask (c : Client T W) (w : W) (e : Engine T) (k : KeyType) : Engine T :=
  let t := e.nextTask
  let e := { e with
    nextTask := t + 1
    taskInfos := Function.update e.taskInfos t
      (some { task := c.createTask w k, forRuleInfo := k }) }
  let e := e.emit (.createdTaskForRule t k)
  e.modifyRule k (fun r =>
    { r with
      state := .inProgressWaiting
      pendingTaskInfo := some t
      result := { r.result with dependencies := [] } })

/-- `task->providePriorValue`, when there is a prior result with the current signature. -/
def providePriorValue (c : Client T W) (w : W) (e : Engine T) (k : KeyType) (t : TaskID) : Engine T :=
  let result := (e.ruleInfos k).result
  if result.builtAt ≠ 0 ∧ c.signature k = result.signature then
    (e.emit (.providedPriorValue t result.value)).callback c t
      (fun task => c.providePriorValue w task result.value)
  else e

/-- Schedule a task that waits for nothing. -/
def scheduleIfReady : Engine T :=
  match e.taskInfos t with
  | none => e.trap
  | some taskInfo =>
    if taskInfo.waitCount = 0 then { e with readyTaskInfos := e.readyTaskInfos ++ [t] } else e

/-- `demandRule`: true if the rule is already available. -/
def demandRule (c : Client T W) (w : W) (e : Engine T) (k : KeyType) : Engine T × Bool :=
  if (e.ruleInfos k).isComplete e.currentEpoch then (e, true)
  else if (e.ruleInfos k).isInProgress then (e, false)
  else if (e.ruleInfos k).state = .doesNotNeedToRun then
    ((e.modifyRule k (fun r => r.setComplete e.currentEpoch)).emit (.updateStatus k .isUpToDate), true)
  else
    let t := e.nextTask
    let e := e.registerTask c w k
    let e := e.callback c t (c.start w)
    let e := e.providePriorValue c w k t
    (e.scheduleIfReady t, false)

/-! ## Scan requests -/

/-- Wake everything that waits for the scan of `k` and leave the scanning state. -/
def wakeScanRecord (scanRecord : RuleScanRecord) (newState : StateKind) :
    Engine T :=
  let e := { e with
    ruleInfosToScan := scanRecord.deferredScanRequests.reverse ++ e.ruleInfosToScan
    inputRequests := e.inputRequests ++ scanRecord.pausedInputRequests }
  e.modifyRule k (fun r => { r with pendingScanRecord := none, state := newState })

/-- `finishScanRequest`. -/
def finishScanRequest (newState : StateKind) : Engine T :=
  match (e.ruleInfos k).pendingScanRecord with
  | none => e.trap
  | some scanRecord => e.wakeScanRecord k scanRecord newState

/-- Add to the scan record of a rule that is being scanned. -/
def modifyScanRecord (f : RuleScanRecord → RuleScanRecord) : Engine T :=
  match (e.ruleInfos k).pendingScanRecord with
  | none => e.trap
  | some scanRecord => e.modifyRule k (fun r => { r with pendingScanRecord := some (f scanRecord) })

/-- Add to the record of the task a rule in progress is being computed by. -/
def modifyPendingTask : Engine T :=
  match (e.ruleInfos k).pendingTaskInfo with
  | none => e.trap
  | some t => e.modifyTask t f

/-- Look up the input of a scan request, if not yet cached; none past the end of the dependency list. -/
def lookupScanInput (request : RuleScanRequest) :
    Option (RuleScanRequest × KeyType) :=
  match request.inputRuleInfo with
  | some input => some (request, input)
  | none =>
    match (e.ruleInfos request.ruleInfo).result.dependencies[request.inputIndex]? with
    | none => none
    | some d => some (request.lookup d, d.keyID)

/-- The `do … while` loop of `processRuleScanRequest`. The fuel is the number of inputs left to look at;
    reading past the dependency list is undefined. -/
def scanInputs (c : Client T W) (w : W) : Nat → Engine T → RuleScanRequest → Engine T
  | 0, e, _ => e.trap
  | fuel + 1, e, request =>
    match e.lookupScanInput request with
    | none => e.trap
    | some (request, input) =>
      let k := request.ruleInfo
      let (e, isScanned) := e.scanRule c w input
      if !isScanned then
        e.modifyScanRecord input (fun record =>
          { record with deferredScanRequests := record.deferredScanRequests ++ [request] })
      else
        let (e, isAvailable) := e.demandRule c w input
        if !isAvailable then
          e.modifyPendingTask input (fun ti =>
            { ti with deferredScanRequests := ti.deferredScanRequests ++ [request] })
        else if !request.orderOnly &&
            (e.ruleInfos k).result.builtAt < (e.ruleInfos input).result.computedAt then
          (e.finishScanRequest k .needsToRun).emit
            (.determinedRuleNeedsToRun k .inputRebuilt (some input))
        else if request.inputIndex + 1 = (e.ruleInfos k).result.dependencies.length then
          e.finishScanRequest k .doesNotNeedToRun
        else scanInputs c w fuel e request.next

/-- `processRuleScanRequest`. A request of a rule that was forced in the meantime is dropped. -/
def processRuleScanRequest (c : Client T W) (w : W) (e : Engine T) (request : RuleScanRequest) :
    Engine T :=
  if (e.ruleInfos request.ruleInfo).isScanning then
    scanInputs c w ((e.ruleInfos request.ruleInfo).result.dependencies.length - request.inputIndex)
      e request
  else e

/-! ## Input requests, ready tasks and finished tasks -/

/-- `decrementTaskWaitCount`. -/
def decrementTaskWaitCount : Engine T :=
  (e.modifyTask t (fun ti => { ti with waitCount := ti.waitCount - 1 })).scheduleIfReady t

/-- Append a popped request to the recorded dependencies of the requesting rule. -/
def recordDependency : Engine T :=
  e.modifyRule k (fun r =>
    { r with result := { r.result with
        dependencies := r.result.dependencies ++
          [{ keyID := request.inputRuleInfo, orderOnly := request.orderOnly,
             singleUse := request.singleUse }] } })

/-- One iteration of the input request loop of `executeTasks`. -/
def processInputRequest (c : Client T W) (w : W) (e : Engine T) (request : TaskInputRequest) :
    Engine T :=
  let input := request.inputRuleInfo
  let (e, isScanned) := e.scanRule c w input
  if !isScanned then
    e.modifyScanRecord input (fun record =>
      { record with pausedInputRequests := record.pausedInputRequests ++ [request] })
  else
    let (e, isAvailable) := e.demandRule c w input
    match request.taskInfo with
    | none => e
    | some t =>
      match e.taskInfos t with
      | none => e.trap
      | some taskInfo =>
        let e := e.recordDependency taskInfo.forRuleInfo request
        if isAvailable then
          { e with finishedInputRequests := request :: e.finishedInputRequests }
        else
          e.modifyPendingTask input (fun ti => { ti with requestedBy := ti.requestedBy ++ [request] })

/-- One iteration of the finished input loop: hand the value over and count down. -/
def processFinishedInputRequest (c : Client T W) (w : W) (e : Engine T) (request : TaskInputRequest) :
    Engine T :=
  match request.taskInfo with
  | none => e.trap
  | some t =>
    let value := (e.ruleInfos request.inputRuleInfo).result.value
    let e := e.emit (.completedTaskInputRequest request value)
    let e := if request.orderOnly then e
      else e.callback c t (fun task =>
        c.provideValue w task request.inputID request.inputRuleInfo value)
    e.decrementTaskWaitCount t

/-- `setComputing`, `inputsAvailable` and the count of outstanding tasks. -/
def startComputing (c : Client T W) (w : W) (e : Engine T) (t : TaskID) (k : KeyType) : Engine T :=
  let e := e.modifyRule k (fun r => { r with state := .inProgressComputing })
  let e := e.modifyTask t (fun ti => { ti with task := c.inputsAvailable w ti.task })
  { e.emit (.inputsAvailable t) with
    numOutstandingUnfinishedTasks := e.numOutstandingUnfinishedTasks + 1 }

/-- One iteration of the ready task loop. -/
def processReadyTask (c : Client T W) (w : W) (e : Engine T) (t : TaskID) : Engine T :=
  match e.taskInfos t with
  | none => e.trap
  | some taskInfo => e.startComputing c w t taskInfo.forRuleInfo

/-- The dummy requests that bring discovered dependencies up to date. -/
def discoveredRequests (dependencies : List Dependency) : List TaskInputRequest :=
  dependencies.map (fun d =>
    { taskInfo := none, inputID := 0, inputRuleInfo := d.keyID, orderOnly := d.orderOnly,
      singleUse := d.singleUse })

/-- `db->setRuleResult`. -/
def setRuleResult (db : BuildDB) (k : KeyType) (result : Result) : BuildDB :=
  { db with results := Function.update db.results k (some result) }

/-- Everything up to the database write when a finished task is popped. -/
def completeRule (taskInfo : TaskInfo T) : Engine T :=
  let k := taskInfo.forRuleInfo
  let e := e.modifyRule k (fun r => { r.setComplete e.currentEpoch with pendingTaskInfo := none })
  let e := e.emit (.updateStatus k .isComplete)
  let e := e.modifyRule k (fun r =>
    { r with result := { r.result with
        dependencies := r.result.dependencies ++ taskInfo.discoveredDependencies } })
  { e with inputRequests := e.inputRequests ++ discoveredRequests taskInfo.discoveredDependencies }

/-- The rest of a finished task: wake what waited for it and delete it. -/
def releaseTask (taskInfo : TaskInfo T) : Engine T :=
  { e with
    ruleInfosToScan := taskInfo.deferredScanRequests.reverse ++ e.ruleInfosToScan
    finishedInputRequests := taskInfo.requestedBy.reverse ++ e.finishedInputRequests
    numOutstandingUnfinishedTasks := e.numOutstandingUnfinishedTasks - 1
    taskInfos := Function.update e.taskInfos t none }

/-- One iteration of the finished task loop; false if the database refused the result, after which the
    remaining tasks are cancelled. -/
def processFinishedTask (c : Client T W) (w : W) (e : Engine T) (t : TaskID) : Engine T × Bool :=
  match e.taskInfos t with
  | none => (e.trap, true)
  | some taskInfo =>
    let e := e.completeRule taskInfo
    let k := taskInfo.forRuleInfo
    match e.db with
    | none => (e.releaseTask t taskInfo, true)
    | some db =>
      match c.setRuleResultError w k with
      | none =>
        ({ e with db := some (setRuleResult db k (e.ruleInfos k).result) }.releaseTask t taskInfo, true)
      | some message =>
        ({ e with
            events := .error message :: e.events
            numOutstandingUnfinishedTasks := e.numOutstandingUnfinishedTasks - 1 }, false)

/-! ## Cancellation -/

/-- The draining loop of `cancelRemainingTasks`: completions are thrown away. -/
def drainFinishedTasks : Engine T :=
  { e with
    numOutstandingUnfinishedTasks := e.numOutstandingUnfinishedTasks - e.finishedTaskInfos.length
    finishedTaskInfos := [] }

/-- Whether a rule has a registered task. -/
def hasTask : Bool :=
  (List.range e.nextTask).any (fun t => (e.taskInfos t).any (fun ti => ti.forRuleInfo = k))

/-- What `cancelRemainingTasks` does once no task is outstanding. -/
def cancelTasks : Engine T :=
  { e with
    ruleInfos := fun k =>
      let r := e.ruleInfos k
      let r := if e.hasTask k then { r.setCancelled with pendingTaskInfo := none } else r
      if r.isScanning then r.setCancelled else r
    ruleInfosToScan := []
    inputRequests := []
    finishedInputRequests := []
    readyTaskInfos := []
    finishedTaskInfos := []
    taskInfos := fun _ => none }

end Engine

end Builra
