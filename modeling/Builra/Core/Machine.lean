import Builra.Core.Cycle

namespace Builra

/-!
# `Core.Machine` — `build()` and the loop of `executeTasks` as a step function

The engine thread is serial; only `complete()`, `discoveredDependency()` and `cancelBuild()` may arrive from
other threads, at any point. A step is one queue operation of the engine thread (`Action.work`) or one such
call, so a run is an arbitrary interleaving of the two. Every engine step names the external state its
callbacks see.
-/

variable {T W : Type}

/-- Where the engine thread stands inside `executeTasks`. -/
inductive Pc where
  | top
  | ruleInfosToScan
  | inputRequests
  | finishedInputRequests
  | readyTaskInfos
  | finishedTaskInfos
  | wait
  | cancelRemainingTasks
deriving DecidableEq, Repr

inductive Phase where
  /-- No build has been started. -/
  | idle
  | executeTasks (buildKey : KeyType) (pc : Pc) (didWork : Bool)
  /-- `build(buildKey)` returned `value`; `success` is what `executeTasks` returned. -/
  | returned (buildKey : KeyType) (success : Bool) (value : ValueType)
  /-- Undefined behaviour was reached. -/
  | crashed
deriving DecidableEq, Repr

structure Machine (T : Type) where
  engine : Engine T := {}
  phase : Phase := .idle

inductive Action (W : Type) where
  | build (key : KeyType)
  | resetForBuild
  | work (world : W)
  | complete (task : TaskID) (value : ValueType) (forceChange : Bool)
  | discoveredDependency (task : TaskID) (key : KeyType)
  | cancelBuild

namespace Machine

/-- An engine with nothing attached, or attached to a database with `attachDB`. -/
def init : Option BuildDB → Machine T
  | none => {}
  | some db =>
    { engine := {
        currentEpoch := db.iteration
        ruleInfos := fun k => { result := (db.results k).getD {} }
        db := some db } }

/-- The dummy request for the key to build. -/
def rootRequest (key : KeyType) : TaskInputRequest :=
  { taskInfo := none, inputID := 0, inputRuleInfo := key }

variable (e : Engine T)

variable (key : KeyType)

/-- The engine when the loop of `executeTasks` is entered: a new epoch, and one request. -/
def startBuild : Engine T :=
  { e with
    currentEpoch := e.currentEpoch + 1
    finishedInputRequests := []
    events := []
    inputRequests := e.inputRequests ++ [rootRequest key] }

/-- `build(key)` up to the loop of `executeTasks`. -/
def build (m : Machine T) (key : KeyType) : Machine T :=
  if m.engine.buildCancelled then { m with phase := .returned key false [] }
  else { engine := startBuild m.engine key, phase := .executeTasks key .top false }

/-- The rest of `build(key)` once `executeTasks` has returned: the scan record blocks are deleted and the
    iteration is written to the database. -/
def finish (success : Bool) : Machine T :=
  { engine := { e with
      ruleInfos := fun k => { e.ruleInfos k with pendingScanRecord := none }
      db := e.db.map (fun db => { db with iteration := e.currentEpoch }) }
    phase := .returned key success (if success then (e.ruleInfos key).result.value else []) }

/-- Continue at `pc` unless the operation ran into undefined behaviour. -/
def continueAt (pc : Pc) (didWork : Bool) : Machine T :=
  if e.trapped then { engine := e, phase := .crashed }
  else { engine := e, phase := .executeTasks key pc didWork }

/-- One step of the engine thread; none while it has to wait for a completion. -/
def work (c : Client T W) (w : W) (e : Engine T) (key : KeyType) (didWork : Bool) :
    Pc → Option (Machine T)
  | .top =>
    if e.buildCancelled then some (continueAt e key .cancelRemainingTasks false)
    else some (continueAt e key .ruleInfosToScan false)
  | .ruleInfosToScan =>
    match e.ruleInfosToScan with
    | [] => some (continueAt e key .inputRequests didWork)
    | request :: rest =>
      some (continueAt ({ e with ruleInfosToScan := rest }.processRuleScanRequest c w request)
        key .ruleInfosToScan true)
  | .inputRequests =>
    match e.inputRequests with
    | [] => some (continueAt e key .finishedInputRequests didWork)
    | request :: rest =>
      some (continueAt ({ e with inputRequests := rest }.processInputRequest c w request)
        key .inputRequests true)
  | .finishedInputRequests =>
    match e.finishedInputRequests with
    | [] => some (continueAt e key .readyTaskInfos didWork)
    | request :: rest =>
      some (continueAt ({ e with finishedInputRequests := rest }.processFinishedInputRequest c w request)
        key .finishedInputRequests true)
  | .readyTaskInfos =>
    match e.readyTaskInfos with
    | [] => some (continueAt e key .finishedTaskInfos didWork)
    | t :: rest =>
      some (continueAt ({ e with readyTaskInfos := rest }.processReadyTask c w t)
        key .readyTaskInfos true)
  | .finishedTaskInfos =>
    match e.finishedTaskInfos with
    | [] => some (continueAt e key .wait didWork)
    | t :: rest =>
      let (e, stored) := { e with finishedTaskInfos := rest }.processFinishedTask c w t
      some (continueAt e key (if stored then .finishedTaskInfos else .cancelRemainingTasks) true)
  | .wait =>
    if didWork then some (continueAt e key .top false)
    else if e.numOutstandingUnfinishedTasks ≠ 0 then
      -- wait for `finishedTaskInfosCondition`
      if e.finishedTaskInfos.isEmpty then none else some (continueAt e key .top false)
    else if (List.range e.nextTask).any (fun t => (e.taskInfos t).isSome) then
      match e.resolveCycle c w key with
      | none => some { engine := e, phase := .crashed }
      | some (e, true) => some (continueAt e key .top false)
      | some (e, false) => some (continueAt e key .cancelRemainingTasks false)
    else some (finish e key true)
  | .cancelRemainingTasks =>
    if e.numOutstandingUnfinishedTasks ≠ 0 then
      if e.finishedTaskInfos.isEmpty then none
      else some (continueAt e.drainFinishedTasks key .cancelRemainingTasks didWork)
    else some (finish e.cancelTasks key false)

/-- A call that another thread makes while a build is running. -/
def external (m : Machine T) (f : Engine T → Engine T) : Machine T :=
  match m.phase with
  | .executeTasks key pc didWork => continueAt (f m.engine) key pc didWork
  | _ => { m with engine := f m.engine }

/-- The step function. A call on a task is enabled while the task is registered, and `complete()` once per
    task, as the `Task` contract demands. -/
def step (c : Client T W) (m : Machine T) : Action W → Option (Machine T)
  | .build key =>
    match m.phase with
    | .idle | .returned _ _ _ => some (m.build key)
    | _ => none
  | .resetForBuild =>
    match m.phase with
    | .crashed => none
    | _ => some { m with engine := { m.engine with buildCancelled := false } }
  | .work w =>
    match m.phase with
    | .executeTasks key pc didWork => work c w m.engine key didWork pc
    | _ => none
  | .complete t value forceChange =>
    match m.phase with
    | .executeTasks _ _ _ =>
      if (m.engine.taskInfos t).isSome ∧ t ∉ m.engine.finishedTaskInfos then
        some (m.external (fun e => e.taskIsComplete c t value forceChange))
      else none
    | _ => none
  | .discoveredDependency t key =>
    match m.phase with
    | .executeTasks _ _ _ =>
      if (m.engine.taskInfos t).isSome ∧ t ∉ m.engine.finishedTaskInfos then
        some (m.external (fun e => e.taskDiscoveredDependency t key))
      else none
    | _ => none
  | .cancelBuild =>
    match m.phase with
    | .crashed => none
    | _ => some (m.external (fun e => { e with buildCancelled := true }))

/-- Run a list of actions. -/
def run (c : Client T W) (m : Machine T) : List (Action W) → Option (Machine T)
  | [] => some m
  | a :: rest => (m.step c a).bind (fun m' => run c m' rest)

/-- The states that runs from `m₀` reach when every step meets the condition `ok`. -/
inductive ReachableFrom (c : Client T W) (ok : Machine T → Action W → Prop) (m₀ : Machine T) :
    Machine T → Prop where
  | refl : ReachableFrom c ok m₀ m₀
  | step {m m'} (a : Action W) : ReachableFrom c ok m₀ m → ok m a →
      m.step c a = some m' → ReachableFrom c ok m₀ m'

/-- The states an engine can reach at all, from any attached database. -/
def Reachable (c : Client T W) (m : Machine T) : Prop :=
  ∃ db, ReachableFrom c (fun _ _ => True) (init db) m

/-- A run whose actions are allowed in every state reaches the state it ends in. -/
theorem reachable_run {c : Client T W} {ok : Machine T → Action W → Prop} {m₀ : Machine T} :
    ∀ (actions : List (Action W)) (m m' : Machine T), (∀ a ∈ actions, ∀ m, ok m a) →
    ReachableFrom c ok m₀ m → run c m actions = some m' → ReachableFrom c ok m₀ m' := by
  intro actions
  induction actions with
  | nil =>
    intro m m' _ hr h
    cases h
    exact hr
  | cons a rest ih =>
    intro m m' hok hr h
    simp only [run, Option.bind_eq_some_iff] at h
    obtain ⟨m₁, hstep, hrest⟩ := h
    exact ih m₁ m' (fun a' ha' => hok a' (.tail _ ha')) (.step a hr (hok a (.head _) m) hstep) hrest

end Machine

end Builra
