import Builra.Core.Board
import Builra.Core.Linked

namespace Builra

open Function RuleInfo Engine Multiset Option

/-!
# `Core.Refine` — the engine implements the scheduler

`Engine.board` forgets rules, scans, values and databases. Every elementary move of the engine is a sequence
of moves of the scheduler (`Micro.board`), so the accounting invariant holds along every run of moves.
-/

variable {T W : Type} {c : Client T W} {w : W}

open Engine

/-- The input requests paused until the scan of a rule is over. -/
def RuleInfo.pausedRequests (r : RuleInfo) : Multiset TaskInputRequest :=
  (r.pendingScanRecord.map (fun record => (record.pausedInputRequests : Multiset _))).getD 0

/-- The input requests that wait for a task to complete. -/
def TaskInfo.requests (ti : Option (TaskInfo T)) : Multiset TaskInputRequest :=
  (ti.map (fun ti => (ti.requestedBy : Multiset _))).getD 0

namespace Engine

variable (e : Engine T)

/-- All paused input requests. -/
def paused : Multiset TaskInputRequest :=
  ∑ k ∈ e.ruleKeys.toFinset, (e.ruleInfos k).pausedRequests

/-- All input requests that wait for a task. -/
def requested : Multiset TaskInputRequest :=
  ∑ t ∈ Finset.range e.nextTask, TaskInfo.requests (e.taskInfos t)

/-- The status of a task. -/
def status (t : TaskID) : Option TaskStatus :=
  (e.taskInfos t).map (fun ti => ⟨ti.waitCount, (e.ruleInfos ti.forRuleInfo).isInProgressComputing⟩)

end Engine

namespace Held

variable (h : Held)

/-- The popped input request. -/
def queued : Multiset TaskInputRequest :=
  match h.item with
  | .inputRequest r => {r}
  | _ => 0

/-- The task inside its first callbacks. -/
def starting : Option TaskID :=
  match h.item with
  | .finishedRequest _ => none
  | _ => h.task

/-- The request that is being delivered. -/
def handing : Option TaskInputRequest :=
  match h.item with
  | .finishedRequest r => some r
  | _ => none

/-- A delivery is made to the task that asked for it. -/
def Wf : Prop := ∀ r, h.item = .finishedRequest r → h.task = r.taskInfo

end Held

/-- **The scheduler the engine implements**, with what the engine thread holds. -/
def Engine.board (e : Engine T) (h : Held) : Board where
  queued := e.inputRequests + e.paused + e.requested + e.finishedInputRequests + h.queued
  status := e.status
  nextTask := e.nextTask
  ready := e.readyTaskInfos
  finished := e.finishedTaskInfos
  outstanding := e.numOutstandingUnfinishedTasks
  starting := h.starting
  handing := h.handing
  events := e.events

/-! ## How the tables contribute -/

theorem paused_modifyRule {e : Engine T} (hl : Linked e) (k : KeyType) (f : RuleInfo → RuleInfo) :
    (e.modifyRule k f).paused + (e.ruleInfos k).pausedRequests
      = e.paused + (f (e.ruleInfos k)).pausedRequests := by
  have hfun : (fun k' => ((e.modifyRule k f).ruleInfos k').pausedRequests)
      = update (fun k' => (e.ruleInfos k').pausedRequests) k
          (f (e.ruleInfos k)).pausedRequests := by
    funext k'
    by_cases hk : k' = k
    · subst hk; rw [modifyRule_ruleInfos_self, update_self]
    · rw [modifyRule_ruleInfos_ne e f hk, update_of_ne hk]
  have hkeys : (e.modifyRule k f).ruleKeys.toFinset = insert k e.ruleKeys.toFinset := by
    ext k'
    simp [modifyRule]
  unfold paused
  rw [hkeys, hfun]
  refine Tally.sum_insert_update_add _ (fun k' => (e.ruleInfos k').pausedRequests) k _ (fun hk => ?_)
  have hnone := (hl.keys k (by simpa using hk)).2
  simp [pausedRequests, hnone]

variable {f : RuleInfo → RuleInfo} {t : TaskID} {ti : TaskInfo T} {r : RuleInfo} {request : TaskInputRequest}

variable {e : Engine T}

theorem paused_modifyRule_eq (hl : Linked e) {k : KeyType}
    (h : (f (e.ruleInfos k)).pausedRequests = (e.ruleInfos k).pausedRequests) :
    (e.modifyRule k f).paused = e.paused := by
  have hsum := paused_modifyRule hl k f
  rw [h] at hsum
  exact add_right_cancel hsum

theorem requested_modifyTask (hl : Linked e) (f : TaskInfo T → TaskInfo T)
    (ht : e.taskInfos t = some ti) :
    (e.modifyTask t f).requested + (ti.requestedBy : Multiset TaskInputRequest)
      = e.requested + ((f ti).requestedBy : Multiset TaskInputRequest) := by
  have hfun : (fun t' => TaskInfo.requests ((e.modifyTask t f).taskInfos t'))
      = update (fun t' => TaskInfo.requests (e.taskInfos t')) t
          ((f ti).requestedBy : Multiset TaskInputRequest) := by
    funext t'
    by_cases heq : t' = t
    · subst heq; simp [modifyTask, ht, TaskInfo.requests]
    · simp [modifyTask, update_of_ne heq]
  have hsum := Tally.sum_update_add (Finset.range e.nextTask)
    (fun t' => TaskInfo.requests (e.taskInfos t')) (Finset.mem_range.mpr (hl.lt_nextTask ht))
    ((f ti).requestedBy : Multiset TaskInputRequest)
  rw [← hfun] at hsum
  simpa [requested, ht, TaskInfo.requests, modifyTask] using hsum

theorem status_modifyRule {k : KeyType}
    (h : (f (e.ruleInfos k)).isInProgressComputing = (e.ruleInfos k).isInProgressComputing) :
    (e.modifyRule k f).status = e.status := by
  funext t
  unfold status
  have htask : (e.modifyRule k f).taskInfos t = e.taskInfos t := rfl
  rw [htask]
  cases e.taskInfos t with
  | none => rfl
  | some ti =>
    by_cases hk : ti.forRuleInfo = k
    · simp only [map_some, hk, modifyRule_ruleInfos_self, h]
    · simp only [map_some, modifyRule_ruleInfos_ne e f hk]

theorem status_modifyTask {f : TaskInfo T → TaskInfo T} (ht : e.taskInfos t = some ti)
    (hk : (f ti).forRuleInfo = ti.forRuleInfo) :
    (e.modifyTask t f).status = Function.update e.status t
      (some ⟨(f ti).waitCount, (e.ruleInfos ti.forRuleInfo).isInProgressComputing⟩) := by
  funext t'
  by_cases heq : t' = t
  · subst heq
    simp [status, modifyTask, ht, hk]
  · simp [status, modifyTask, heq]

theorem status_of_task (ht : e.taskInfos t = some ti) :
    e.status t = some ⟨ti.waitCount, (e.ruleInfos ti.forRuleInfo).isInProgressComputing⟩ := by
  simp [status, ht]

/-- Writing to a rule without touching its paused requests or whether it computes. -/
theorem board_modifyRule (hl : Linked e) (h : Held) {k : KeyType}
    (hp : (f (e.ruleInfos k)).pausedRequests = (e.ruleInfos k).pausedRequests)
    (hc : (f (e.ruleInfos k)).isInProgressComputing = (e.ruleInfos k).isInProgressComputing) :
    (e.modifyRule k f).board h = e.board h := by
  refine Board.ext ?_ (status_modifyRule hc) rfl rfl rfl rfl rfl rfl rfl
  simp only [board, paused_modifyRule_eq hl hp]
  rfl

/-- Writing to a task without touching what the scheduler sees of it. -/
theorem board_modifyTask (hl : Linked e) (h : Held) {f : TaskInfo T → TaskInfo T}
    (hk : ∀ ti, (f ti).forRuleInfo = ti.forRuleInfo) (hr : ∀ ti, (f ti).requestedBy = ti.requestedBy)
    (hw : ∀ ti, (f ti).waitCount = ti.waitCount) :
    (e.modifyTask t f).board h = e.board h := by
  cases ht : e.taskInfos t with
  | none =>
    have heq : e.modifyTask t f = e := by
      simp only [modifyTask, ht, map_none]
      rw [← ht, update_eq_self]
    rw [heq]
  | some ti =>
    refine Board.ext ?_ ?_ rfl rfl rfl rfl rfl rfl rfl
    · have hsum := requested_modifyTask hl f ht
      rw [hr] at hsum
      simp only [board, add_right_cancel hsum]
      rfl
    · refine (status_modifyTask ht (hk ti)).trans ?_
      rw [hw, ← status_of_task ht, update_eq_self]
      rfl

/-! ## The operations as moves of the scheduler -/

/-- Moves of the scheduler. -/
abbrev Board.Moves : Board → Board → Prop := Relation.ReflTransGen Board.Move

theorem pausedRequests_of_record {record : RuleScanRecord} (h : r.pendingScanRecord = some record) :
    r.pausedRequests = (record.pausedInputRequests : Multiset TaskInputRequest) := by
  simp [pausedRequests, h]

theorem pausedRequests_of_none (h : r.pendingScanRecord = none) :
    r.pausedRequests = 0 := by
  simp [pausedRequests, h]

theorem not_computing_of_not_inProgress (h : r.isInProgress = false) :
    r.isInProgressComputing = false := by
  simp only [isInProgress, Bool.or_eq_false_iff] at h
  exact h.2

theorem not_computing_of_waiting (h : r.isInProgressWaiting = true) :
    r.isInProgressComputing = false := by
  simp only [isInProgressWaiting, decide_eq_true_eq] at h
  simp [isInProgressComputing, h]

/-- Waking a scan record requeues its paused requests. -/
theorem board_wakeScanRecord (hl : Linked e) (h : Held) {k : KeyType}
    {record : RuleScanRecord} (newState : StateKind) (hk : (e.ruleInfos k).isScanning = true)
    (hr : (e.ruleInfos k).pendingScanRecord = some record) (hs : newState ≠ .inProgressComputing) :
    (e.wakeScanRecord k record newState).board h = e.board h := by
  refine Board.ext ?_ ?_ rfl rfl rfl rfl rfl rfl rfl
  · have hsum := paused_modifyRule hl k
      (fun r => { r with pendingScanRecord := none, state := newState })
    rw [pausedRequests_of_record hr, pausedRequests_of_none rfl, add_zero] at hsum
    have hp : (e.wakeScanRecord k record newState).paused
        = (e.modifyRule k (fun r => { r with pendingScanRecord := none, state := newState })).paused := rfl
    simp only [board, ← hsum, hp]
    simp only [wakeScanRecord, modifyRule, requested, ← coe_add]
    abel
  · refine status_modifyRule (e := e) (k := k)
      (f := fun r => { r with pendingScanRecord := none, state := newState }) ?_
    rw [not_computing_of_not_inProgress (isInProgress_of_scanning hk)]
    simp [isInProgressComputing, hs]

/-- A fresh task is registered. -/
theorem board_registerTask (hl : Linked e) {item : HeldItem} {k : KeyType}
    (hk : (e.ruleInfos k).state = .needsToRun) (hitem : ∀ request, item ≠ .finishedRequest request) :
    Board.Moves (e.board { item := item })
      ((e.registerTask c w k).board { item := item, task := some e.nextTask }) := by
  have hstart : ∀ task, ({ item := item, task := task } : Held).starting = task := by
    intro task; cases item <;> simp_all [Held.starting]
  have hhand : ∀ task, ({ item := item, task := task } : Held).handing = none := by
    intro task; cases item <;> simp_all [Held.handing]
  have hnone := hl.fresh e.nextTask le_rfl
  refine .tail (.single (.register (hstart none) (hhand none)))
    (b := { e.board { item := item } with
      status := update e.status e.nextTask (some ⟨0, false⟩)
      nextTask := e.nextTask + 1
      starting := some e.nextTask }) ?_
  have heq : (e.registerTask c w k).board { item := item, task := some e.nextTask } =
      { e.board { item := item } with
        status := update e.status e.nextTask (some ⟨0, false⟩)
        nextTask := e.nextTask + 1
        starting := some e.nextTask
        events := .createdTaskForRule e.nextTask k :: e.events } := by
    refine Board.ext ?_ ?_ rfl rfl rfl rfl (hstart _) ((hhand _).trans (hhand _).symm) rfl
    · have hp : (e.registerTask c w k).paused = e.paused :=
        paused_modifyRule_eq hl (k := k) (f := fun r =>
          { r with
            state := .inProgressWaiting, pendingTaskInfo := some e.nextTask,
            result := { r.result with dependencies := [] } }) rfl
      have hr : (e.registerTask c w k).requested = e.requested := by
        have hsum := Tally.sum_range_succ_update e.nextTask
          (fun t => TaskInfo.requests (e.taskInfos t)) 0
        rw [add_zero] at hsum
        refine Eq.trans (Finset.sum_congr rfl (fun t _ => ?_)) hsum
        by_cases ht : t = e.nextTask
        · subst ht; simp [registerTask, modifyRule, emit, TaskInfo.requests]
        · simp [registerTask, modifyRule, emit, ht]
      simp only [board, hp, hr]
      rfl
    · funext t
      by_cases ht : t = e.nextTask
      · subst ht
        simp [board, status, registerTask, modifyRule, emit,
          isInProgressComputing]
      · have hst := congrFun (status_modifyRule (e := e) (k := k) (f := fun r =>
          { r with
            state := .inProgressWaiting, pendingTaskInfo := some e.nextTask,
            result := { r.result with dependencies := [] } })
          (by simp [isInProgressComputing, hk])) t
        simpa [board, status, registerTask, modifyRule, emit, ht] using hst
  rw [heq]
  exact .report _ rfl

theorem waiting_of_task {h : Held} (ht : e.taskInfos t = some ti)
    (hw : (e.ruleInfos ti.forRuleInfo).isInProgressComputing = false) :
    (e.board h).Waiting t ti.waitCount := by
  show e.status t = _
  rw [status_of_task ht, hw]

theorem held_in_callback {item : HeldItem} {calls : List TaskCall}
    (hh : Held.Wf { item := item, task := some t, started := true, calls := calls }) :
    (e.board { item := item, task := some t, started := true, calls := calls }).starting = some t ∨
      (e.board { item := item, task := some t, started := true, calls := calls }).handingTo t = 1 := by
  cases item with
  | finishedRequest r =>
    right
    have ht := hh r rfl
    rw [Board.handingTo_of_handing (r := r) rfl, if_pos (names_iff.mpr ht.symm)]
  | none | scanRequest r | inputRequest r => exact .inl rfl

section

variable (hl : Linked e)
include hl

/-- A callback makes a request. -/
theorem board_callRequest {item : HeldItem} {call : TaskCall} {calls : List TaskCall}
    (hh : Held.Wf { item := item, task := some t, started := true, calls := call :: calls })
    (ht : e.taskInfos t = some ti) (hw : (e.ruleInfos ti.forRuleInfo).isInProgressWaiting = true)
    (hc : call.toRequest t = some request) :
    Board.Move (e.board { item := item, task := some t, started := true, calls := call :: calls })
      ((e.enqueueRequest t request).board
        { item := item, task := some t, started := true, calls := calls }) := by
  have hreq : request.taskInfo = some t ∧ request.forcePriorValue = false := by
    cases call with
    | request key inputID | requestSingleUse key inputID =>
      simp only [TaskCall.toRequest] at hc
      split_ifs at hc
      cases hc
      exact ⟨rfl, rfl⟩
    | mustFollow key =>
      cases hc
      exact ⟨rfl, rfl⟩
    | discoveredDependency key | complete value forceChange => exact absurd hc (by simp [TaskCall.toRequest])
  have hnc := not_computing_of_waiting hw
  have hmove := Board.Move.request t ti.waitCount request (waiting_of_task ht hnc) hreq.1 hreq.2
    (held_in_callback (e := e) hh)
  have heq : (e.enqueueRequest t request).board
      { item := item, task := some t, started := true, calls := calls } =
      { e.board { item := item, task := some t, started := true, calls := call :: calls } with
        queued := request ::ₘ
          (e.board { item := item, task := some t, started := true, calls := call :: calls }).queued
        status := update e.status t (some ⟨ti.waitCount + 1, false⟩)
        events := .requestedInput request :: e.events } := by
    refine Board.ext ?_ ?_ rfl rfl rfl rfl rfl rfl rfl
    · have hsum := requested_modifyTask hl (fun ti => { ti with waitCount := ti.waitCount + 1 }) ht
      have hr : (e.enqueueRequest t request).requested = e.requested := add_right_cancel hsum
      simp only [board, hr, Held.queued]
      simp only [enqueueRequest, modifyTask, emit, paused, ← coe_add, coe_singleton,
        ← singleton_add]
      abel
    · exact (status_modifyTask (f := fun ti => { ti with waitCount := ti.waitCount + 1 }) ht rfl).trans
        (by rw [hnc])
  rw [heq]
  exact hmove

/-- A delivery is counted down. -/
theorem board_decrement {started : Bool} (ht : e.taskInfos t = some ti)
    (hreq : request.taskInfo = some t)
    (hb : (e.board { item := .finishedRequest request, task := some t, started := started }).Inv) :
    Board.Move (e.board { item := .finishedRequest request, task := some t, started := started })
      ((e.decrementTaskWaitCount t).board {}) := by
  have hst : (e.board { item := .finishedRequest request, task := some t, started := started }).status t
      = some ⟨ti.waitCount, (e.ruleInfos ti.forRuleInfo).isInProgressComputing⟩ := status_of_task ht
  have hbal := hb.balance t
  rw [Board.waitCount_of_status hst, Board.handingTo_of_handing (r := request) rfl,
    if_pos (names_iff.mpr hreq)] at hbal
  -- a computing task waits for nothing
  have hnc : (e.ruleInfos ti.forRuleInfo).isInProgressComputing = false := by
    by_contra hc
    rw [Bool.not_eq_false] at hc
    rw [hc] at hst
    have hzero := hb.computing t _ hst
    dsimp only at hbal
    omega
  obtain ⟨n, hn⟩ : ∃ n, ti.waitCount = n + 1 := ⟨_, hbal⟩
  set e₁ := e.modifyTask t (fun ti => { ti with waitCount := ti.waitCount - 1 }) with he₁
  have hr : e₁.requested = e.requested :=
    add_right_cancel (requested_modifyTask hl (fun ti => { ti with waitCount := ti.waitCount - 1 }) ht)
  have hs : e₁.status = update e.status t (some ⟨n, false⟩) := by
    refine (status_modifyTask (f := fun ti => { ti with waitCount := ti.waitCount - 1 }) ht rfl).trans ?_
    rw [hnc, hn, Nat.add_sub_cancel]
  have ht₁ : e₁.taskInfos t = some { ti with waitCount := n } := by
    simp [he₁, modifyTask, ht, hn]
  have hw : (e.board { item := .finishedRequest request, task := some t, started := started }).Waiting t
      (n + 1) := by rw [← hn]; exact waiting_of_task ht hnc
  unfold decrementTaskWaitCount scheduleIfReady
  rw [← he₁, ht₁]
  dsimp only
  cases n with
  | zero =>
    have heq : ({ e₁ with readyTaskInfos := e₁.readyTaskInfos ++ [t] } : Engine T).board {} =
        { e.board { item := .finishedRequest request, task := some t, started := started } with
          handing := none
          status := update e.status t (some ⟨0, false⟩)
          ready := e.readyTaskInfos ++ [t] } := by
      refine Board.ext ?_ hs rfl rfl rfl rfl rfl rfl rfl
      show _ + _ + e₁.requested + _ + _ = _
      rw [hr]
      rfl
    rw [if_pos rfl, heq]
    exact .countDownReady request t rfl rfl hreq hw
  | succ n =>
    have heq : e₁.board {} =
        { e.board { item := .finishedRequest request, task := some t, started := started } with
          handing := none
          status := update e.status t (some ⟨n + 1, false⟩) } := by
      refine Board.ext ?_ hs rfl rfl rfl rfl rfl rfl rfl
      show _ + _ + e₁.requested + _ + _ = _
      rw [hr]
      rfl
    rw [if_neg (Nat.succ_ne_zero n), heq]
    exact .countDownWaiting request t n rfl rfl hreq hw

/-- A ready task is told that its inputs are available. -/
theorem board_startComputing {rest : List TaskID}
    (hready : e.readyTaskInfos = t :: rest) (ht : e.taskInfos t = some ti) (hb : (e.board {}).Inv) :
    Board.Move (e.board {})
      (({ e with readyTaskInfos := rest }.startComputing c w t ti.forRuleInfo).board {}) := by
  have hw : (e.board {}).Waiting t 0 := ((hb.ready t).mp (by
    show t ∈ e.readyTaskInfos
    rw [hready]; simp)).1
  have hcount : ti.waitCount = 0 := by
    have hst : e.status t = some ⟨0, false⟩ := hw
    rw [status_of_task ht] at hst
    simpa using congrArg (fun o => o.map TaskStatus.waitCount) hst
  set e₁ := e.modifyRule ti.forRuleInfo (fun r => { r with state := .inProgressComputing }) with he₁
  have hl₁ : Linked e₁ := by
    obtain ⟨hprog, -⟩ := hl.taskRule t ti ht
    refine hl.modifyRule ?_ rfl ((hl.rule _).of_not_scanning (not_isScanning_of_isInProgress hprog) rfl)
    rw [hprog]
    simp [isInProgress, isInProgressComputing]
  have hp : e₁.paused = e.paused := paused_modifyRule_eq hl rfl
  set e₂ := e₁.modifyTask t (fun ti => { ti with task := c.inputsAvailable w ti.task }) with he₂
  have hr : e₂.requested = e.requested :=
    add_right_cancel (requested_modifyTask hl₁
      (fun ti => { ti with task := c.inputsAvailable w ti.task }) ht)
  have hs : e₂.status = update e.status t (some ⟨0, true⟩) := by
    funext t'
    by_cases heq : t' = t
    · subst heq
      simp [he₂, he₁, status, modifyTask, modifyRule, ht, hcount, isInProgressComputing]
    · rw [update_of_ne heq]
      have htask : e₂.taskInfos t' = e.taskInfos t' := by simp [he₂, he₁, modifyTask, modifyRule, heq]
      unfold status
      rw [htask]
      cases hti' : e.taskInfos t' with
      | none => rfl
      | some ti' =>
        have hne : ti'.forRuleInfo ≠ ti.forRuleInfo := fun hk => heq (hl.task_unique hti' ht hk)
        simp [he₂, he₁, modifyTask, modifyRule, hne]
  have heq : ({ e with readyTaskInfos := rest }.startComputing c w t ti.forRuleInfo).board {} =
      { e.board {} with
        ready := rest
        status := update e.status t (some ⟨0, true⟩)
        outstanding := e.numOutstandingUnfinishedTasks + 1
        events := .inputsAvailable t :: e.events } := by
    refine Board.ext ?_ hs rfl rfl rfl rfl rfl rfl rfl
    show _ + e₁.paused + e₂.requested + _ + _ = _
    rw [hr, hp]
    rfl
  rw [heq]
  exact .launch t rest hready hw

/-- A finished task is released. -/
theorem board_finishTask {rest : List TaskID} (db : Option BuildDB)
    (hfin : e.finishedTaskInfos = t :: rest) (ht : e.taskInfos t = some ti) :
    Board.Moves (e.board {})
      (({ { e with finishedTaskInfos := rest }.completeRule ti with db := db }.releaseTask t ti).board
        {}) := by
  obtain ⟨hprog, -⟩ := hl.taskRule t ti ht
  have hns := not_isScanning_of_isInProgress hprog
  have hnone := (hl.rule ti.forRuleInfo).record_eq_none hns
  set e' := { { e with finishedTaskInfos := rest }.completeRule ti with db := db }.releaseTask t ti with he'
  have hp : e'.paused = e.paused := by
    have h₁ := paused_modifyRule_eq hl (k := ti.forRuleInfo) (f := fun r =>
      { (({ r.setComplete e.currentEpoch with pendingTaskInfo := none } : RuleInfo)) with
        result := { r.result with
          builtAt := e.currentEpoch
          dependencies := r.result.dependencies ++ ti.discoveredDependencies } }) rfl
    refine Eq.trans ?_ h₁
    simp [he', paused, releaseTask, completeRule, modifyRule, emit, setComplete]
  have hr : e'.requested + (ti.requestedBy : Multiset TaskInputRequest) = e.requested := by
    have hsum := Tally.sum_update_add (Finset.range e.nextTask)
      (fun t' => TaskInfo.requests (e.taskInfos t')) (Finset.mem_range.mpr (hl.lt_nextTask ht)) 0
    rw [add_zero] at hsum
    refine Eq.trans ?_ hsum
    simp only [ht, TaskInfo.requests, map_some, getD_some]
    congr 1
    refine Finset.sum_congr rfl (fun t' _ => ?_)
    by_cases heq : t' = t
    · subst heq; simp [he', releaseTask, TaskInfo.requests]
    · simp [he', releaseTask, completeRule, modifyRule, emit, heq, TaskInfo.requests]
  have hs : e'.status = update e.status t none := by
    funext t'
    by_cases heq : t' = t
    · subst heq; simp [he', status, releaseTask]
    · rw [update_of_ne heq]
      have htask : e'.taskInfos t' = e.taskInfos t' := by
        simp [he', releaseTask, completeRule, modifyRule, emit, heq]
      unfold status
      rw [htask]
      cases hti' : e.taskInfos t' with
      | none => rfl
      | some ti' =>
        have hne : ti'.forRuleInfo ≠ ti.forRuleInfo := fun hk => heq (hl.task_unique hti' ht hk)
        simp [he', releaseTask, completeRule, modifyRule, emit, hne]
  have heq : e'.board {} =
      { e.board {} with
        queued := (discoveredRequests ti.discoveredDependencies : Multiset TaskInputRequest) +
          (e.board {}).queued
        finished := rest
        status := update e.status t none
        outstanding := e.numOutstandingUnfinishedTasks - 1
        events := .updateStatus ti.forRuleInfo .isComplete :: e.events } := by
    refine Board.ext ?_ hs rfl rfl rfl rfl rfl rfl rfl
    simp only [board, hp, ← hr]
    simp only [he', releaseTask, completeRule, modifyRule, emit, ← coe_add,
      coe_reverse]
    abel
  rw [heq]
  have hdummy : ∀ r ∈ (discoveredRequests ti.discoveredDependencies : Multiset TaskInputRequest),
      r.taskInfo = none := by
    intro r hr
    obtain ⟨d, -, rfl⟩ := List.mem_map.mp (mem_coe.mp hr)
    rfl
  refine .head (.report (.updateStatus ti.forRuleInfo .isComplete) rfl)
    (.head (.addDummies _ hdummy) (.single ?_))
  exact .release t rest hfin

/-- A rule records what it asked for. -/
theorem board_recordDependency (h : Held) (k : KeyType)
    (request : TaskInputRequest) : (e.recordDependency k request).board h = e.board h :=
  board_modifyRule hl h rfl rfl

/-- One request for a rule in progress gets its prior value. -/
theorem board_supplyPriorValue (ht : e.taskInfos t = some ti)
    (hmem : request ∈ ti.requestedBy) :
    Board.Move (e.board {}) ((e.supplyPriorValue t request).board {}) := by
  set e₁ := e.modifyTask t (fun ti => { ti with requestedBy := ti.requestedBy.erase request }) with he₁
  have hr : e₁.requested + {request} = e.requested := by
    have hsum := requested_modifyTask hl
      (fun ti => { ti with requestedBy := ti.requestedBy.erase request }) ht
    have hcons : (ti.requestedBy : Multiset TaskInputRequest)
        = (ti.requestedBy.erase request : Multiset TaskInputRequest) + {request} := by
      rw [← coe_erase, add_comm, singleton_add, cons_erase hmem]
    dsimp only at hsum
    rw [hcons, ← add_assoc, add_right_comm] at hsum
    exact add_right_cancel hsum
  have hs : e₁.status = e.status := by
    refine (status_modifyTask
      (f := fun ti => { ti with requestedBy := ti.requestedBy.erase request }) ht rfl).trans ?_
    exact (congrArg _ (status_of_task ht).symm).trans (update_eq_self t e.status)
  have hq : (e.board {}).queued
      = request ::ₘ (e.inputRequests + e.paused + e₁.requested + e.finishedInputRequests) := by
    show _ + _ + e.requested + _ + 0 = _
    rw [← hr, ← singleton_add]
    abel
  have heq : (e.supplyPriorValue t request).board {} =
      { e.board {} with queued := { request with forcePriorValue := true } ::ₘ
          (e.inputRequests + e.paused + e₁.requested + e.finishedInputRequests) } := by
    refine Board.ext ?_ hs rfl rfl rfl rfl rfl rfl rfl
    show _ + _ + e₁.requested + (({ request with forcePriorValue := true } :: e.finishedInputRequests :
      List TaskInputRequest) : Multiset TaskInputRequest) + 0 = _
    rw [← cons_coe, ← singleton_add, ← singleton_add, add_zero]
    exact add_left_comm _ _ _
  rw [heq]
  exact .force request _ hq

end

/-- Deliveries are made to the task that asked for them, in every state. -/
theorem Micro.heldWf {e e' : Engine T} {h h' : Held} (hm : Micro c w (e, h) (e', h')) (hh : h.Wf) :
    h'.Wf := by
  cases hm with
  | registerTask k _ hitem | scheduleReady t ti _ hitem _ | scheduleWaiting t ti _ hitem _ =>
    exact fun r hr => absurd hr (hitem r)
  | popFinished request rest t _ hreq => rintro r ⟨⟩; exact hreq.symm
  | _ => first | exact hh | (intro r hr; exact absurd hr (by simp))

/-- Changing the task object, the calls still to make or the scan requests shows on no board. -/
theorem board_setTask (hl : Linked e) (h : Held) (t : TaskID) (task : T) :
    (e.setTask t task).board h = e.board h :=
  board_modifyTask hl h (fun _ => rfl) (fun _ => rfl) (fun _ => rfl)

theorem isPlain_of_isReport {event : Event} (h : event.isReport = true) : event.isPlain = true := by
  cases event <;> simp_all [Event.isReport, Event.isPlain]

theorem pausedRequests_untouched (hl : Linked e) {k : KeyType}
    (hu : (e.ruleInfos k).Untouched e.currentEpoch) : (e.ruleInfos k).pausedRequests = 0 :=
  pausedRequests_of_none ((hl.rule k).record_eq_none hu.2)

/-- **Every elementary move of the engine is a sequence of moves of the scheduler.** -/
theorem Micro.board {e e' : Engine T} {h h' : Held} (hm : Micro c w (e, h) (e', h')) (hl : Linked e)
    (hh : h.Wf) (hb : (e.board h).Inv) : Board.Moves (e.board h) (e'.board h') := by
  cases hm with
  | report event he => exact .single (.report event (isPlain_of_isReport he))
  | cancel | popScan request rest _ | dropScan request _ | lookupScanInput request d _ _ _
  | advanceScan request input _ _ _ _ _ => exact .refl
  | cleanRule k hu => rw [board_modifyRule hl h rfl rfl]
  | scanNeedsToRun k hu _ | scanUpToDate k hu _ _ =>
    rw [board_modifyRule hl h rfl
      (by rw [not_computing_of_not_inProgress (isInProgress_of_untouched hu)]; rfl)]
  | scanScheduled k hu _ _ _ =>
    have heq := board_modifyRule hl h (k := k)
      (f := fun r => { r with state := .isScanning, pendingScanRecord := some {} })
      (by rw [pausedRequests_untouched hl hu]; rfl)
      (by rw [not_computing_of_not_inProgress (isInProgress_of_untouched hu)]; rfl)
    rw [← heq]
    exact .refl
  | markUpToDate k hd =>
    rw [board_modifyRule hl h rfl (by simp [isInProgressComputing, setComplete, hd])]
  | registerTask k hk hitem => exact board_registerTask hl hk hitem
  | start item t ti _ _ _ _ | providePriorValue t ti value _ _ | provideValue request t ti _ _ _ =>
    rw [board_setTask hl]; exact .refl
  | callRequest t ti call request ht hw hc => exact .single (board_callRequest hl hh ht hw hc)
  | callError t call _ => exact .single (.report (.error call.errorMessage) rfl)
  | @scheduleReady _ item t ti ht hitem hz =>
    have hstart : (e.board { item := item, task := some t, started := true }).starting = some t := by
      cases item <;> simp_all [Engine.board, Held.starting]
    obtain ⟨n, hn⟩ := hb.starting t hstart
    have hw : (e.board { item := item, task := some t, started := true }).Waiting t 0 := by
      have hst : e.status t = some ⟨n, false⟩ := hn
      rw [status_of_task ht] at hst
      simp only [Option.some.injEq, TaskStatus.mk.injEq] at hst
      show e.status t = _
      rw [status_of_task ht, hz]
      simpa using hst.2
    have heq : ({ e with readyTaskInfos := e.readyTaskInfos ++ [t] } : Engine T).board { item := item } =
        { e.board { item := item, task := some t, started := true } with
          starting := none, ready := e.readyTaskInfos ++ [t] } := by
      refine Board.ext rfl rfl rfl rfl rfl rfl ?_ rfl rfl
      cases item <;> simp_all [Engine.board, Held.starting]
    rw [heq]
    exact .single (.startReady t hstart hw)
  | @scheduleWaiting _ item t ti ht hitem hz =>
    have hstart : (e.board { item := item, task := some t, started := true }).starting = some t := by
      cases item <;> simp_all [Engine.board, Held.starting]
    obtain ⟨n, hn⟩ := hb.starting t hstart
    obtain ⟨m, rfl⟩ : ∃ m, n = m + 1 := by
      have hst : e.status t = some ⟨n, false⟩ := hn
      rw [status_of_task ht] at hst
      simp only [Option.some.injEq, TaskStatus.mk.injEq] at hst
      exact Nat.exists_eq_succ_of_ne_zero (hst.1 ▸ hz)
    have heq : e.board { item := item } =
        { e.board { item := item, task := some t, started := true } with starting := none } := by
      refine Board.ext rfl rfl rfl rfl rfl rfl ?_ rfl rfl
      cases item <;> simp_all [Engine.board, Held.starting]
    rw [heq]
    exact .single (.startWaiting t m hstart hn)
  | deferOnScan request input record _ _ _ hrec =>
    rw [board_modifyRule hl {} (by rw [pausedRequests_of_record hrec]; rfl) rfl]
    exact .refl
  | deferOnTask request input t _ _ _ _ =>
    have heq := board_modifyTask hl {} (t := t) (f := fun ti =>
      { ti with deferredScanRequests := ti.deferredScanRequests ++ [request] })
      (fun _ => rfl) (fun _ => rfl) (fun _ => rfl)
    rw [heq]
    exact .refl
  | finishScanRun request input record hk _ _ _ hrec | finishScanUpToDate request input record hk _ _ _ _ hrec =>
    rw [board_wakeScanRecord hl {} _ hk hrec (by simp)]
    exact .refl
  | popInput request rest hq =>
    have heq : ({ e with inputRequests := rest } : Engine T).board { item := .inputRequest request }
        = e.board {} := by
      refine Board.ext ?_ rfl rfl rfl rfl rfl rfl rfl rfl
      simp only [Engine.board, Held.queued, hq, ← Multiset.cons_coe, ← Multiset.singleton_add]
      show (rest : Multiset TaskInputRequest) + e.paused + e.requested + _ + _ = _
      abel
    rw [heq]
  | pauseInput request record hs hrec =>
    have hsum := paused_modifyRule hl request.inputRuleInfo (fun r => r.pauseInput record request)
    rw [pausedRequests_of_record hrec, pausedRequests_of_record rfl, ← coe_add,
      coe_singleton] at hsum
    have hp : (e.modifyRule request.inputRuleInfo (fun r => r.pauseInput record request)).paused
        = e.paused + {request} := by
      refine add_right_cancel (hsum.trans ?_) (b := (record.pausedInputRequests : Multiset _))
      abel
    have heq : (e.modifyRule request.inputRuleInfo (fun r => r.pauseInput record request)).board {}
        = e.board { item := .inputRequest request } := by
      refine Board.ext ?_ (status_modifyRule rfl) rfl rfl rfl rfl rfl rfl rfl
      simp only [Engine.board, hp, Held.queued]
      show (e.inputRequests : Multiset TaskInputRequest) + _ + e.requested + e.finishedInputRequests + _ = _
      abel
    rw [heq]
  | dropDummy request hreq _ =>
    refine .single (.dropDummy request (e.board {}).queued hreq ?_)
    simp only [Engine.board, Held.queued, ← Multiset.singleton_add]
    abel
  | recordAvailable request t ti _ _ _ =>
    have hrec := board_recordDependency hl { item := .inputRequest request } ti.forRuleInfo request
    rw [← hrec]
    have hf : (e.recordDependency ti.forRuleInfo request).finishedInputRequests
        = e.finishedInputRequests := rfl
    generalize e.recordDependency ti.forRuleInfo request = e₁ at hf ⊢
    have heq : ({ e₁ with finishedInputRequests := request :: e.finishedInputRequests } : Engine T).board {}
        = e₁.board { item := .inputRequest request } := by
      refine Board.ext ?_ rfl rfl rfl rfl rfl rfl rfl rfl
      simp only [Engine.board, Held.queued, hf, ← Multiset.cons_coe, ← Multiset.singleton_add]
      show _ + e₁.paused + e₁.requested + _ + 0 = _
      abel
    rw [heq]
  | recordPending request t ti t' _ _ hp ht' =>
    have hrec := board_recordDependency hl { item := .inputRequest request } ti.forRuleInfo request
    rw [← hrec]
    obtain ⟨ti', hti', -⟩ := hl.pendingTask hp ht'
    have hl' : Linked (e.recordDependency ti.forRuleInfo request) :=
      hl.modifyResult _ (fun _ => rfl) (fun _ => rfl) (fun _ => rfl)
    have hti'' : (e.recordDependency ti.forRuleInfo request).taskInfos t' = some ti' := hti'
    generalize e.recordDependency ti.forRuleInfo request = e₁ at *
    have hsum := requested_modifyTask hl'
      (fun ti => { ti with requestedBy := ti.requestedBy ++ [request] }) hti''
    have hr : (e₁.modifyTask t' (fun ti =>
        { ti with requestedBy := ti.requestedBy ++ [request] })).requested = e₁.requested + {request} := by
      refine add_right_cancel (hsum.trans ?_) (b := (ti'.requestedBy : Multiset _))
      simp only [← coe_add, coe_singleton]
      abel
    have hst := status_modifyTask
      (f := fun ti : TaskInfo T => { ti with requestedBy := ti.requestedBy ++ [request] }) hti'' rfl
    have heq : (e₁.modifyTask t' (fun ti =>
        { ti with requestedBy := ti.requestedBy ++ [request] })).board {}
        = e₁.board { item := .inputRequest request } := by
      refine Board.ext ?_ (hst.trans ?_) rfl rfl rfl rfl rfl rfl rfl
      · simp only [Engine.board, hr, Held.queued]
        show (e₁.inputRequests : Multiset TaskInputRequest) + e₁.paused + _ + e₁.finishedInputRequests + _
          = _
        abel
      · exact (congrArg _ (status_of_task hti'').symm).trans (Function.update_eq_self t' e₁.status)
    rw [heq]
  | popFinished request rest t hq hreq =>
    refine .single (.handOver request t _
      (e.inputRequests + e.paused + e.requested + rest + 0) hreq rfl rfl ?_)
    simp only [Engine.board, Held.queued, hq, ← Multiset.cons_coe, ← Multiset.singleton_add]
    abel
  | decrement request t ti ht hreq _ => exact .single (board_decrement hl ht hreq hb)
  | popReady t rest ti hready ht => exact .single (board_startComputing hl hready ht hb)
  | finishTask t rest ti db hfin ht _ => exact board_finishTask hl db hfin ht
  | forceBuild k record hn _ hk hr =>
    rw [forceBuild_eq hn.1 hr]
    have hw := board_wakeScanRecord hl {} .needsToRun hk hr (by simp)
    have hl' := hl.wakeScanRecord record .needsToRun hk (by simp) (by simp)
    generalize e.wakeScanRecord k record .needsToRun = e₁ at hw hl' ⊢
    have hl'' : Linked (e₁.emit (.determinedRuleNeedsToRun k .forced none)) := hl'.congr rfl rfl rfl rfl
    have hf := board_modifyRule hl'' {} (k := k) (f := fun r => { r with wasForced := true }) rfl rfl
    rw [hf, ← hw]
    exact .single (.report (.determinedRuleNeedsToRun k .forced none) rfl)
  | supplyPriorValue t ti request _ ht hmem _ => exact .single (board_supplyPriorValue hl ht hmem)

theorem ThreadCall.board {e e' : Engine T} (hc : ThreadCall c e e') (hl : Linked e) :
    Board.Moves (e.board {}) (e'.board {}) := by
  cases hc with
  | taskIsComplete t ti value forceChange ht hc hnf =>
    have heq := board_modifyRule hl {} (k := ti.forRuleInfo) (f := fun r =>
      { r with
        result := storeValue (c.signature ti.forRuleInfo) e.currentEpoch value forceChange r.result })
      rfl rfl
    rw [taskIsComplete_eq value forceChange ht hc, ← heq]
    refine .single (.complete t ⟨ti.waitCount, ?_⟩ hnf)
    rw [heq, ← hc]
    exact status_of_task ht
  | discoveredDependency t ti key ht hc _ =>
    have heq := board_modifyTask hl {} (t := t) (f := fun ti =>
      { ti with discoveredDependencies := ti.discoveredDependencies ++ [{ keyID := key }] })
      (fun _ => rfl) (fun _ => rfl) (fun _ => rfl)
    rw [taskDiscoveredDependency_eq key ht hc, heq]

end Builra
