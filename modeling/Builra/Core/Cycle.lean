import Builra.Core.Engine
import Mathlib.Data.List.Sort

namespace Builra

/-!
# `Core.Cycle` — `findCycle`, `breakCycle` and `resolveCycle`

The graph is kept as its list of edges `(node, successor)`, where the successor waits for the node. The
source gathers the scan records through a worklist seeded with the record of every scanning rule, each
visited once, so the model visits the scanning rules. The explicit stack of the search is the recursion
of `searchCycle`: a work item's `predecessorIndex` is the position in the list of predecessors.
-/

variable {T W : Type}

namespace Engine

variable (e : Engine T)

/-- The rule of the task that made a request. -/
def requestingRule (request : TaskInputRequest) : Option KeyType :=
  (request.taskInfo.bind e.taskInfos).map (fun ti => ti.forRuleInfo)

/-- The successors of the rule of one registered task. -/
def taskEdges (ti : TaskInfo T) : List (KeyType × KeyType) :=
  ti.requestedBy.filterMap (fun request =>
    (e.requestingRule request).map (fun succ => (ti.forRuleInfo, succ))) ++
  ti.deferredScanRequests.map (fun request => (ti.forRuleInfo, request.ruleInfo))

/-- The edges gathered from one active scan record. -/
def recordEdges (record : RuleScanRecord) : List (KeyType × KeyType) :=
  record.pausedInputRequests.filterMap (fun request =>
    (e.requestingRule request).map (fun succ => (request.inputRuleInfo, succ))) ++
  record.deferredScanRequests.filterMap (fun request =>
    request.inputRuleInfo.map (fun input => (input, request.ruleInfo)))

/-- `successorGraph`. -/
def successorGraph : List (KeyType × KeyType) :=
  (List.range e.nextTask).flatMap (fun t => ((e.taskInfos t).map e.taskEdges).getD []) ++
  e.ruleKeys.flatMap (fun k =>
    if (e.ruleInfos k).isScanning then
      (((e.ruleInfos k).pendingScanRecord).map e.recordEdges).getD []
    else [])

/-- `predecessorGraph`, with the predecessors of a rule sorted by key. -/
def predecessorGraph (k : KeyType) : List KeyType :=
  ((e.successorGraph.filter (fun edge => edge.2 = k)).map Prod.fst).insertionSort (fun a b => ¬ b < a)

/-- The depth-first search for a rule that is already on the path; the path never repeats a rule, so its
    length bounds the depth. -/
def searchCycle (predecessors : KeyType → List KeyType) :
    Nat → List KeyType → KeyType → Option (List KeyType)
  | 0, _, _ => none
  | depth + 1, cycleList, node =>
    if node ∈ cycleList then some (cycleList ++ [node])
    else (predecessors node).findSome? (fun child =>
      searchCycle predecessors depth (cycleList ++ [node]) child)

/-- `findCycle`: empty if the search from the build key ends without meeting a cycle. -/
def findCycle (buildKey : KeyType) : List KeyType :=
  (searchCycle e.predecessorGraph (e.ruleKeys.length + 2) [] buildKey).getD []

/-- The branch of `breakCycle` that forces a scanning rule to run. -/
def forceBuild (k : KeyType) : Engine T :=
  let e := { e with ruleInfosToScan :=
    (e.ruleInfosToScan.reverse.eraseP (fun (request : RuleScanRequest) => request.ruleInfo = k)).reverse }
  let e := (e.finishScanRequest k .needsToRun).emit (.determinedRuleNeedsToRun k .forced none)
  e.modifyRule k (fun r => { r with wasForced := true })

/-- The branch of `breakCycle` that hands the prior value of a rule to one request for it. -/
def supplyPriorValue (t : TaskID) (request : TaskInputRequest) : Engine T :=
  let e := { e with finishedInputRequests :=
    { request with forcePriorValue := true } :: e.finishedInputRequests }
  e.modifyTask t (fun ti => { ti with requestedBy := ti.requestedBy.erase request })

/-- `breakCycle`, over the reversed list; none if it reads past the front of the list. -/
def breakCycle (c : Client T W) (w : W) (cycleList : List KeyType) (e : Engine T) :
    List KeyType → Option (Engine T × Bool)
  | [] => some (e, false)
  | k :: rest =>
    let r := e.ruleInfos k
    if r.isScanning then
      if c.shouldResolveCycle w cycleList k .forceBuild then some (e.forceBuild k, true)
      else some (e, false)
    else if r.isInProgressWaiting && r.result.builtAt ≠ 0 then
      match rest, r.pendingTaskInfo with
      | next :: _, some t =>
        match ((e.taskInfos t).map (fun ti => ti.requestedBy)).getD [] |>.find?
            (fun request => e.requestingRule request = some next) with
        | none => breakCycle c w cycleList e rest
        | some request =>
          if c.shouldResolveCycle w cycleList k .supplyPriorValue then
            some (e.supplyPriorValue t request, true)
          else some (e, false)
      | _, _ => none
    else breakCycle c w cycleList e rest

/-- A rule left scanning by an earlier build, whose record was deleted with its block. -/
def hasDanglingRecord : Bool :=
  e.ruleKeys.any (fun k => (e.ruleInfos k).isScanning && (e.ruleInfos k).pendingScanRecord.isNone)

/-- `resolveCycle`; none if it runs into undefined behaviour. -/
def resolveCycle (c : Client T W) (w : W) (e : Engine T) (buildKey : KeyType) :
    Option (Engine T × Bool) :=
  if e.hasDanglingRecord then none
  else
    let cycleList := e.findCycle buildKey
    match e.breakCycle c w cycleList cycleList.reverse with
    | some (e, true) => some (e, true)
    | some (e, false) => some (e.emit (.cycleDetected cycleList), false)
    | none => none

end Engine

end Builra
