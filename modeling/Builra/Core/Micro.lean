import Builra.Core.Machine

namespace Builra

/-!
# `Core.Micro` — what the engine can do, one elementary move at a time

The operations of `BuildEngineImpl` call each other (`processInputRequest` scans, demands, starts a task,
whose callbacks queue requests …). This file cuts them into elementary moves. A move sees what the engine
thread holds in local variables (`Held`): a popped request and the task it is inside of. Every invariant of
the development is proved once per move; `Core.Decompose` shows that every step of the machine is a sequence
of moves.
-/

variable {T W : Type}

/-- The request the engine thread has popped and not yet disposed of. -/
inductive HeldItem where
  | none
  | scanRequest (request : RuleScanRequest)
  | inputRequest (request : TaskInputRequest)
  | finishedRequest (request : TaskInputRequest)

/-- The local variables of the engine thread: a popped request, the task whose callbacks it is in, whether
    that task was started, and the calls it has still to make. -/
structure Held where
  item : HeldItem := .none
  task : Option TaskID := none
  started : Bool := false
  calls : List TaskCall := []

/-- The input request that a call of task `t` stands for; none if the engine answers with an error. -/
def TaskCall.toRequest (t : TaskID) : TaskCall → Option TaskInputRequest
  | .request key inputID =>
    if inputID > kMaximumInputID then none
    else some { taskInfo := some t, inputID := inputID, inputRuleInfo := key }
  | .requestSingleUse key inputID =>
    if inputID > kMaximumInputID then none
    else some { taskInfo := some t, inputID := inputID, inputRuleInfo := key, singleUse := true }
  | .mustFollow key =>
    some { taskInfo := some t, inputID := kMustFollowInputID, inputRuleInfo := key, orderOnly := true }
  | .discoveredDependency _ => none
  | .complete _ _ => none

/-- The error message of a call that stands for no request. -/
def TaskCall.errorMessage : TaskCall → String
  | .discoveredDependency _ => "invalid state for adding discovered dependency"
  | .complete _ _ => "invalid state for marking task complete"
  | _ => "attempt to use reserved input ID"

/-- Events that report nothing about tasks and their inputs. -/
def Event.isReport : Event → Bool
  | .updateStatus _ _ | .determinedRuleNeedsToRun _ _ _ | .providedPriorValue _ _ | .cycleDetected _
  | .error _ => true
  | _ => false

namespace RuleInfo

variable (r : RuleInfo)

/-- The rule is complete in the current epoch. -/
def Done (currentEpoch : Epoch) : Prop := r.isComplete currentEpoch = true

/-- The rule was not looked at yet in this epoch: it is neither scanned nor being scanned. -/
def Untouched (currentEpoch : Epoch) : Prop :=
  r.isScanned currentEpoch = false ∧ r.isScanning = false

/-- A scan request is added to the record of the rule it waits for. -/
def deferScan (record : RuleScanRecord) (request : RuleScanRequest) : RuleInfo :=
  { r with
    pendingScanRecord :=
      some { record with deferredScanRequests := record.deferredScanRequests ++ [request] } }

/-- An input request is added to the record of the rule it waits for. -/
def pauseInput (record : RuleScanRecord) (request : TaskInputRequest) : RuleInfo :=
  { r with
    pendingScanRecord :=
      some { record with pausedInputRequests := record.pausedInputRequests ++ [request] } }

end RuleInfo

namespace Engine

/-- The stored result of `k` may be reused as far as the rule itself is concerned. -/
def Reusable (c : Client T W) (w : W) (e : Engine T) (k : KeyType) : Prop :=
  (e.ruleInfos k).result.builtAt ≠ 0 ∧ c.signature k = (e.ruleInfos k).result.signature ∧
    c.isResultValid w k (e.ruleInfos k).result.value = true

variable (e : Engine T)

/-- The dependency on `input` does not make `k` run: it is order-only or not newer. -/
def NotRebuilt (k input : KeyType) (orderOnly : Bool) : Prop :=
  orderOnly = true ∨ (e.ruleInfos input).result.computedAt ≤ (e.ruleInfos k).result.builtAt

/-- There is nothing to do and nothing outstanding. -/
def NoWork : Prop :=
  e.ruleInfosToScan = [] ∧ e.inputRequests = [] ∧ e.finishedInputRequests = [] ∧
    e.readyTaskInfos = [] ∧ e.numOutstandingUnfinishedTasks = 0

/-- The task object of `t` is replaced by what a callback returned. -/
def setTask (t : TaskID) (task : T) : Engine T :=
  e.modifyTask t (fun ti => { ti with task := task })

end Engine

/-- **The elementary moves of the engine** under the external state `w`. -/
inductive Micro (c : Client T W) (w : W) : Engine T × Held → Engine T × Held → Prop where
  | report {e h} (event : Event) : event.isReport = true → Micro c w (e, h) (e.emit event, h)
  | cancel {e h} : Micro c w (e, h) ({ e with buildCancelled := true }, h)
  -- `scanRule`
  | cleanRule {e h} (k : KeyType) : (e.ruleInfos k).Untouched e.currentEpoch →
      Micro c w (e, h)
        (e.modifyRule k (fun r =>
          { r with
            result :=
              { r.result with dependencies := cleanSingleUseDependencies r.result.dependencies }
            wasForced := false }), h)
  | scanNeedsToRun {e h} (k : KeyType) : (e.ruleInfos k).Untouched e.currentEpoch →
      ¬ e.Reusable c w k →
      Micro c w (e, h) (e.modifyRule k (fun r => { r with state := .needsToRun }), h)
  | scanUpToDate {e h} (k : KeyType) : (e.ruleInfos k).Untouched e.currentEpoch →
      e.Reusable c w k → (e.ruleInfos k).result.dependencies = [] →
      Micro c w (e, h) (e.modifyRule k (fun r => { r with state := .doesNotNeedToRun }), h)
  | scanScheduled {e h} (k : KeyType) : (e.ruleInfos k).Untouched e.currentEpoch →
      e.Reusable c w k → (e.ruleInfos k).result.dependencies ≠ [] →
      (∀ d ∈ (e.ruleInfos k).result.dependencies, d.singleUse = false) →
      Micro c w (e, h)
        ({ e.modifyRule k (fun r =>
            { r with state := .isScanning, pendingScanRecord := some {} }) with
          ruleInfosToScan :=
            { ruleInfo := k, inputIndex := 0, inputRuleInfo := none } :: e.ruleInfosToScan }, h)
  -- `demandRule`
  | markUpToDate {e h} (k : KeyType) : (e.ruleInfos k).state = .doesNotNeedToRun →
      Micro c w (e, h) (e.modifyRule k (fun r => r.setComplete e.currentEpoch), h)
  | registerTask {e} {item} (k : KeyType) : (e.ruleInfos k).state = .needsToRun →
      (∀ request, item ≠ .finishedRequest request) →
      Micro c w (e, { item := item })
        (e.registerTask c w k, { item := item, task := some e.nextTask })
  | start {e} (item : HeldItem) (t : TaskID) (ti : TaskInfo T) : e.taskInfos t = some ti →
      (∀ request, item ≠ .finishedRequest request) → ti.task = c.createTask w ti.forRuleInfo →
      ti.waitCount = 0 →
      Micro c w (e, { item := item, task := some t })
        (e.setTask t (c.start w ti.task).1,
          { item := item, task := some t, started := true, calls := (c.start w ti.task).2 })
  | providePriorValue {e} {item} (t : TaskID) (ti : TaskInfo T) (value : ValueType) :
      e.taskInfos t = some ti → (∀ request, item ≠ .finishedRequest request) →
      Micro c w (e, { item := item, task := some t, started := true })
        (e.setTask t (c.providePriorValue w ti.task value).1,
          { item := item, task := some t, started := true,
            calls := (c.providePriorValue w ti.task value).2 })
  | provideValue {e} (request : TaskInputRequest) (t : TaskID) (ti : TaskInfo T) :
      e.taskInfos t = some ti → request.taskInfo = some t → request.orderOnly = false →
      Micro c w (e, { item := .finishedRequest request, task := some t })
        (e.setTask t (c.provideValue w ti.task request.inputID request.inputRuleInfo
            (e.ruleInfos request.inputRuleInfo).result.value).1,
          { item := .finishedRequest request, task := some t, started := true,
            calls := (c.provideValue w ti.task request.inputID request.inputRuleInfo
              (e.ruleInfos request.inputRuleInfo).result.value).2 })
  | callRequest {e} {item} (t : TaskID) (ti : TaskInfo T) (call : TaskCall)
      (request : TaskInputRequest) {calls} : e.taskInfos t = some ti →
      (e.ruleInfos ti.forRuleInfo).isInProgressWaiting = true → call.toRequest t = some request →
      Micro c w (e, { item := item, task := some t, started := true, calls := call :: calls })
        (e.enqueueRequest t request, { item := item, task := some t, started := true, calls := calls })
  | callError {e} {item} (t : TaskID) (call : TaskCall) {calls} :
      call.toRequest t = none →
      Micro c w (e, { item := item, task := some t, started := true, calls := call :: calls })
        (e.error call.errorMessage,
          { item := item, task := some t, started := true, calls := calls })
  | scheduleReady {e} {item} (t : TaskID) (ti : TaskInfo T) : e.taskInfos t = some ti →
      (∀ request, item ≠ .finishedRequest request) → ti.waitCount = 0 →
      Micro c w (e, { item := item, task := some t, started := true })
        ({ e with readyTaskInfos := e.readyTaskInfos ++ [t] }, { item := item })
  | scheduleWaiting {e} {item} (t : TaskID) (ti : TaskInfo T) : e.taskInfos t = some ti →
      (∀ request, item ≠ .finishedRequest request) → ti.waitCount ≠ 0 →
      Micro c w (e, { item := item, task := some t, started := true }) (e, { item := item })
  -- `processRuleScanRequest`
  | popScan {e} (request : RuleScanRequest) (rest : List RuleScanRequest) :
      e.ruleInfosToScan = request :: rest →
      Micro c w (e, {}) ({ e with ruleInfosToScan := rest }, { item := .scanRequest request })
  | dropScan {e} (request : RuleScanRequest) : (e.ruleInfos request.ruleInfo).isScanning = false →
      Micro c w (e, { item := .scanRequest request }) (e, {})
  | lookupScanInput {e} (request : RuleScanRequest) (d : Dependency) :
      (e.ruleInfos request.ruleInfo).isScanning = true → request.inputRuleInfo = none →
      (e.ruleInfos request.ruleInfo).result.dependencies[request.inputIndex]? = some d →
      Micro c w (e, { item := .scanRequest request })
        (e, { item := .scanRequest (request.lookup d) })
  | deferOnScan {e} (request : RuleScanRequest) (input : KeyType) (record : RuleScanRecord) :
      (e.ruleInfos request.ruleInfo).isScanning = true → request.inputRuleInfo = some input →
      (e.ruleInfos input).isScanning = true → (e.ruleInfos input).pendingScanRecord = some record →
      Micro c w (e, { item := .scanRequest request })
        (e.modifyRule input (fun r => r.deferScan record request), {})
  | deferOnTask {e} (request : RuleScanRequest) (input : KeyType) (t : TaskID) :
      (e.ruleInfos request.ruleInfo).isScanning = true → request.inputRuleInfo = some input →
      (e.ruleInfos input).isInProgress = true → (e.ruleInfos input).pendingTaskInfo = some t →
      Micro c w (e, { item := .scanRequest request })
        (e.modifyTask t (fun ti =>
          { ti with deferredScanRequests := ti.deferredScanRequests ++ [request] }), {})
  | advanceScan {e} (request : RuleScanRequest) (input : KeyType) :
      (e.ruleInfos request.ruleInfo).isScanning = true → request.inputRuleInfo = some input →
      (e.ruleInfos input).Done e.currentEpoch →
      e.NotRebuilt request.ruleInfo input request.orderOnly →
      request.inputIndex + 1 ≠ (e.ruleInfos request.ruleInfo).result.dependencies.length →
      Micro c w (e, { item := .scanRequest request })
        (e, { item := .scanRequest request.next })
  | finishScanRun {e} (request : RuleScanRequest) (input : KeyType) (record : RuleScanRecord) :
      (e.ruleInfos request.ruleInfo).isScanning = true → request.inputRuleInfo = some input →
      (e.ruleInfos input).Done e.currentEpoch →
      ¬ e.NotRebuilt request.ruleInfo input request.orderOnly →
      (e.ruleInfos request.ruleInfo).pendingScanRecord = some record →
      Micro c w (e, { item := .scanRequest request })
        (e.wakeScanRecord request.ruleInfo record .needsToRun, {})
  | finishScanUpToDate {e} (request : RuleScanRequest) (input : KeyType) (record : RuleScanRecord) :
      (e.ruleInfos request.ruleInfo).isScanning = true → request.inputRuleInfo = some input →
      (e.ruleInfos input).Done e.currentEpoch →
      e.NotRebuilt request.ruleInfo input request.orderOnly →
      request.inputIndex + 1 = (e.ruleInfos request.ruleInfo).result.dependencies.length →
      (e.ruleInfos request.ruleInfo).pendingScanRecord = some record →
      Micro c w (e, { item := .scanRequest request })
        (e.wakeScanRecord request.ruleInfo record .doesNotNeedToRun, {})
  -- the input request loop
  | popInput {e} (request : TaskInputRequest) (rest : List TaskInputRequest) :
      e.inputRequests = request :: rest →
      Micro c w (e, {}) ({ e with inputRequests := rest }, { item := .inputRequest request })
  | pauseInput {e} (request : TaskInputRequest) (record : RuleScanRecord) :
      (e.ruleInfos request.inputRuleInfo).isScanning = true →
      (e.ruleInfos request.inputRuleInfo).pendingScanRecord = some record →
      Micro c w (e, { item := .inputRequest request })
        (e.modifyRule request.inputRuleInfo (fun r => r.pauseInput record request), {})
  | dropDummy {e} (request : TaskInputRequest) : request.taskInfo = none →
      ((e.ruleInfos request.inputRuleInfo).Done e.currentEpoch ∨
        (e.ruleInfos request.inputRuleInfo).isInProgress = true) →
      Micro c w (e, { item := .inputRequest request }) (e, {})
  | recordAvailable {e} (request : TaskInputRequest) (t : TaskID) (ti : TaskInfo T) :
      request.taskInfo = some t → e.taskInfos t = some ti →
      (e.ruleInfos request.inputRuleInfo).Done e.currentEpoch →
      Micro c w (e, { item := .inputRequest request })
        ({ e.recordDependency ti.forRuleInfo request with
          finishedInputRequests := request :: e.finishedInputRequests }, {})
  | recordPending {e} (request : TaskInputRequest) (t : TaskID) (ti : TaskInfo T) (t' : TaskID) :
      request.taskInfo = some t → e.taskInfos t = some ti →
      (e.ruleInfos request.inputRuleInfo).isInProgress = true →
      (e.ruleInfos request.inputRuleInfo).pendingTaskInfo = some t' →
      Micro c w (e, { item := .inputRequest request })
        ((e.recordDependency ti.forRuleInfo request).modifyTask t' (fun ti =>
          { ti with requestedBy := ti.requestedBy ++ [request] }), {})
  -- the finished input loop
  | popFinished {e} (request : TaskInputRequest) (rest : List TaskInputRequest) (t : TaskID) :
      e.finishedInputRequests = request :: rest → request.taskInfo = some t →
      Micro c w (e, {})
        ({ e with finishedInputRequests := rest }.emit (.completedTaskInputRequest request
            (e.ruleInfos request.inputRuleInfo).result.value),
          { item := .finishedRequest request, task := some t })
  | decrement {e} {started} (request : TaskInputRequest) (t : TaskID) (ti : TaskInfo T) :
      e.taskInfos t = some ti → request.taskInfo = some t → started = !request.orderOnly →
      Micro c w (e, { item := .finishedRequest request, task := some t, started := started })
        (e.decrementTaskWaitCount t, {})
  -- ready and finished tasks
  | popReady {e} (t : TaskID) (rest : List TaskID) (ti : TaskInfo T) :
      e.readyTaskInfos = t :: rest → e.taskInfos t = some ti →
      Micro c w (e, {})
        ({ e with readyTaskInfos := rest }.startComputing c w t ti.forRuleInfo, {})
  | finishTask {e} (t : TaskID) (rest : List TaskID) (ti : TaskInfo T) (db : Option BuildDB) :
      e.finishedTaskInfos = t :: rest → e.taskInfos t = some ti →
      db = (e.db.map (fun db => Engine.setRuleResult db ti.forRuleInfo
        (({ e with finishedTaskInfos := rest }.completeRule ti).ruleInfos ti.forRuleInfo).result)) →
      Micro c w (e, {})
        ({ { e with finishedTaskInfos := rest }.completeRule ti with db := db }.releaseTask t ti, {})
  -- `breakCycle`
  | forceBuild {e} (k : KeyType) (record : RuleScanRecord) : e.NoWork →
      (∃ t ti, e.taskInfos t = some ti) → (e.ruleInfos k).isScanning = true →
      (e.ruleInfos k).pendingScanRecord = some record → Micro c w (e, {}) (e.forceBuild k, {})
  | supplyPriorValue {e} (t : TaskID) (ti : TaskInfo T) (request : TaskInputRequest) : e.NoWork →
      e.taskInfos t = some ti → request ∈ ti.requestedBy →
      (e.ruleInfos ti.forRuleInfo).isInProgressWaiting = true →
      Micro c w (e, {}) (e.supplyPriorValue t request, {})

/-- **The calls from other threads that the engine accepts.** -/
inductive ThreadCall (c : Client T W) : Engine T → Engine T → Prop where
  | taskIsComplete {e} (t : TaskID) (ti : TaskInfo T) (value : ValueType) (forceChange : Bool) :
      e.taskInfos t = some ti → (e.ruleInfos ti.forRuleInfo).isInProgressComputing = true →
      t ∉ e.finishedTaskInfos → ThreadCall c e (e.taskIsComplete c t value forceChange)
  | discoveredDependency {e} (t : TaskID) (ti : TaskInfo T) (key : KeyType) :
      e.taskInfos t = some ti → (e.ruleInfos ti.forRuleInfo).isInProgressComputing = true →
      t ∉ e.finishedTaskInfos → ThreadCall c e (e.taskDiscoveredDependency t key)

/-- A sequence of moves. -/
abbrev Micros (c : Client T W) (w : W) : Engine T × Held → Engine T × Held → Prop :=
  Relation.ReflTransGen (Micro c w)

end Builra
