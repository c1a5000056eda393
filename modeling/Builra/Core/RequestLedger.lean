import Builra.Core.Accounting
import Builra.Core.Ledger

namespace Builra

open Option RuleInfo Ledger

/-!
# `Core.RequestLedger` — the ledger the engine keeps

What each operation of the engine does to the ledger of requests: most leave it alone, callbacks make requests
at the end of the queue, and the end of a scan wakes what is paused on the rule.
-/

variable {T W : Type} {c : Client T W} {w : W}

open Engine Ledger

/-- The input request an event reports for task `t`. -/
def Event.asked (t : TaskID) : Event → Option TaskInputRequest
  | .requestedInput r => if r.taskInfo = some t then some r else none
  | _ => none

/-- The requests task `t` has made in this build, in order. -/
def Engine.askedBy (e : Engine T) (t : TaskID) : List TaskInputRequest :=
  (e.events.filterMap (Event.asked t)).reverse

/-- The requests that are paused on the scan of a rule. -/
def RuleInfo.paused (r : RuleInfo) : List TaskInputRequest :=
  (r.pendingScanRecord.map (fun record => record.pausedInputRequests)).getD []

/-- The ledger the engine keeps, with the request it has popped. -/
def Engine.ledger (e : Engine T) (held : List TaskInputRequest) : Ledger where
  queue := e.inputRequests
  held := held
  paused := fun k => (e.ruleInfos k).paused
  recorded := fun t => (e.taskInfos t).map (fun ti => (e.ruleInfos ti.forRuleInfo).result.dependencies)
  asked := fun t => (e.askedBy t).map (fun r => r.dependency)
  nextTask := e.nextTask

variable {held : List TaskInputRequest}

/-! ## Operations that leave the ledger alone -/

variable {e e' : Engine T} {f : TaskInfo T → TaskInfo T} {k : KeyType} {t n : TaskID}

theorem askedBy_cons {event : Event} (h : e'.events = event :: e.events) (ha : ∀ t, event.asked t = none) (t : TaskID) :
    e'.askedBy t = e.askedBy t := by
  rw [askedBy, askedBy, h, List.filterMap_cons, ha t]

theorem askedBy_of_eq (h : e'.events = e.events) (t : TaskID) :
    e'.askedBy t = e.askedBy t := by
  rw [askedBy, askedBy, h]

/-- At most one rule is written to, and neither what is paused on it nor what is recorded changes. -/
theorem ledger_eq_of_rule (k : KeyType) (hq : e'.inputRequests = e.inputRequests) (hn : e'.nextTask = e.nextTask)
    (ha : ∀ t, e'.askedBy t = e.askedBy t)
    (ht : ∀ t, (e'.taskInfos t).map (fun ti => ti.forRuleInfo) = (e.taskInfos t).map (fun ti => ti.forRuleInfo))
    (hr : ∀ k', k' ≠ k → e'.ruleInfos k' = e.ruleInfos k') (hp : (e'.ruleInfos k).paused = (e.ruleInfos k).paused)
    (hd : (∃ t ti, e.taskInfos t = some ti ∧ ti.forRuleInfo = k) →
      (e'.ruleInfos k).result.dependencies = (e.ruleInfos k).result.dependencies) :
    e'.ledger held = e.ledger held := by
  refine Ledger.ext hq rfl (funext fun k' => ?_) (funext fun t => ?_) (funext fun t => ?_) hn
  · by_cases hk : k' = k
    · subst hk
      exact hp
    · simp only [ledger, hr k' hk]
  · have hmap := ht t
    cases hti : e.taskInfos t with
    | none =>
      rw [hti, map_none, map_eq_none_iff] at hmap
      simp [ledger, hti, hmap]
    | some ti =>
      rw [hti, map_some] at hmap
      obtain ⟨ti', hti', hfor⟩ := map_eq_some_iff.mp hmap
      simp only [ledger, hti, hti', map_some, hfor, some.injEq]
      by_cases hk : ti.forRuleInfo = k
      · rw [hk]
        exact hd ⟨t, ti, hti, hk⟩
      · rw [hr _ hk]
  · simp only [ledger, ha t]

/-- No rule is written to. -/
theorem ledger_eq (hq : e'.inputRequests = e.inputRequests) (hn : e'.nextTask = e.nextTask)
    (ha : ∀ t, e'.askedBy t = e.askedBy t)
    (ht : ∀ t, (e'.taskInfos t).map (fun ti => ti.forRuleInfo) = (e.taskInfos t).map (fun ti => ti.forRuleInfo))
    (hr : e'.ruleInfos = e.ruleInfos) : e'.ledger held = e.ledger held :=
  ledger_eq_of_rule [] hq hn ha ht (fun k _ => by rw [hr]) (by rw [hr]) (fun _ => by rw [hr])

theorem ledger_emit (e : Engine T) (event : Event) (ha : ∀ t, event.asked t = none) :
    (e.emit event).ledger held = e.ledger held :=
  ledger_eq rfl rfl (askedBy_cons rfl ha) (fun _ => rfl) rfl

theorem ledger_error (e : Engine T) (message : String) : (e.error message).ledger held = e.ledger held :=
  ledger_eq rfl rfl (askedBy_cons rfl (fun _ => rfl)) (fun _ => rfl) rfl

theorem forRuleInfo_modifyTask (e : Engine T) (t t' : TaskID) (hf : ∀ ti, (f ti).forRuleInfo = ti.forRuleInfo) :
    ((e.modifyTask t f).taskInfos t').map (fun ti => ti.forRuleInfo)
      = (e.taskInfos t').map (fun ti => ti.forRuleInfo) := by
  by_cases heq : t' = t
  · subst heq
    cases hti : e.taskInfos t' with
    | none => simp [modifyTask, hti]
    | some ti => simp [modifyTask, hti, hf]
  · simp [modifyTask, heq]

theorem ledger_modifyTask (e : Engine T) (t : TaskID) (hf : ∀ ti, (f ti).forRuleInfo = ti.forRuleInfo) :
    (e.modifyTask t f).ledger held = e.ledger held :=
  ledger_eq rfl rfl (askedBy_of_eq rfl) (fun t' => forRuleInfo_modifyTask e t t' hf) rfl

/-- The dependencies of a rule stay as they are. -/
theorem ledger_modifyRule_same (k : KeyType) (f : RuleInfo → RuleInfo)
    (hp : (f (e.ruleInfos k)).paused = (e.ruleInfos k).paused)
    (hd : (f (e.ruleInfos k)).result.dependencies = (e.ruleInfos k).result.dependencies) :
    (e.modifyRule k f).ledger held = e.ledger held := by
  refine ledger_eq_of_rule k rfl rfl (askedBy_of_eq rfl) (fun _ => rfl)
    (fun k' hk' => modifyRule_ruleInfos_ne e f hk') ?_ (fun _ => ?_)
  · rw [modifyRule_ruleInfos_self]
    exact hp
  · rw [modifyRule_ruleInfos_self]
    exact hd

theorem paused_of_not_scanning (hl : Linked e) (hk : (e.ruleInfos k).isScanning = false) :
    (e.ruleInfos k).paused = [] := by
  rw [RuleInfo.paused, (hl.rule k).record_eq_none hk]
  rfl

theorem ledger_startScan (hl : Linked e) (hu : (e.ruleInfos k).Untouched e.currentEpoch) :
    (e.startScan c w k).1.ledger held = e.ledger held := by
  have hprog := isInProgress_of_untouched hu
  have hnil := paused_of_not_scanning hl hu.2
  have hrec := (hl.rule k).record_eq_none hu.2
  -- every branch writes to `k` only and leaves nothing paused on it
  refine ledger_eq_of_rule k ?_ ?_ (fun t => ?_) (fun t => ?_) (fun k' hk' => ?_) ?_ ?_
  · unfold startScan
    dsimp only
    split_ifs <;> rfl
  · unfold startScan
    dsimp only
    split_ifs <;> rfl
  · unfold startScan
    dsimp only
    split_ifs <;> rfl
  · unfold startScan
    dsimp only
    split_ifs <;> rfl
  · unfold startScan
    dsimp only
    split_ifs <;> simp [modifyRule, emit, hk']
  · rw [hnil]
    unfold startScan
    dsimp only
    split_ifs <;> simp [modifyRule, emit, RuleInfo.paused, hrec]
  · rintro ⟨t, ti, hti, rfl⟩
    rw [(hl.taskRule t ti hti).1] at hprog
    exact absurd hprog (by simp)

theorem ledger_scanRule (hl : Linked e) (k : KeyType) :
    (e.scanRule c w k).1.ledger held = e.ledger held := by
  unfold scanRule
  split_ifs with hs hc
  · rfl
  · rfl
  · exact ledger_startScan hl ⟨by simpa using hs, by simpa using hc⟩

theorem ledger_scheduleIfReady (e : Engine T) (t : TaskID) :
    (e.scheduleIfReady t).ledger held = e.ledger held := by
  unfold scheduleIfReady
  split
  · rfl
  · split_ifs
    · rfl
    · rfl

theorem ledger_decrementTaskWaitCount (e : Engine T) (t : TaskID) :
    (e.decrementTaskWaitCount t).ledger held = e.ledger held := by
  unfold decrementTaskWaitCount
  rw [ledger_scheduleIfReady, ledger_modifyTask]
  exact fun _ => rfl

theorem ledger_modifyPendingTask (e : Engine T) (k : KeyType) (hf : ∀ ti, (f ti).forRuleInfo = ti.forRuleInfo) :
    (e.modifyPendingTask k f).ledger held = e.ledger held := by
  unfold modifyPendingTask
  split
  · rfl
  · exact ledger_modifyTask e _ hf

/-! ## Tasks that make requests -/

theorem TaskCall.taskInfo_toRequest {call : TaskCall} {r : TaskInputRequest} (h : call.toRequest t = some r) :
    r.taskInfo = some t := by
  cases call with
  | request key inputID | requestSingleUse key inputID =>
    simp only [TaskCall.toRequest] at h
    split_ifs at h
    exact (some.inj h) ▸ rfl
  | mustFollow key => exact (some.inj h) ▸ rfl
  | discoveredDependency key | complete value forceChange => exact absurd h (by simp [TaskCall.toRequest])

theorem ledger_enqueueRequest (e : Engine T) {r : TaskInputRequest} (hr : r.taskInfo = some t) :
    (e.enqueueRequest t r).ledger held =
      { e.ledger held with
        queue := e.inputRequests ++ [r]
        asked := Function.update (e.ledger held).asked t ((e.ledger held).asked t ++ [r.dependency]) } := by
  have htask : (e.modifyTask t (fun ti => { ti with waitCount := ti.waitCount + 1 })).ledger held
      = e.ledger held := ledger_modifyTask e t (fun _ => rfl)
  have hrec : ((e.enqueueRequest t r).ledger held).recorded = (e.ledger held).recorded := by
    rw [← htask]
    rfl
  refine Ledger.ext rfl rfl rfl hrec (funext fun t' => ?_) rfl
  by_cases heq : t' = t
  · subst heq
    simp [ledger, askedBy, enqueueRequest, modifyTask, emit, Event.asked, hr]
  · have hne : ¬ t = t' := fun h => heq h.symm
    simp [ledger, askedBy, enqueueRequest, modifyTask, emit, Event.asked, hr, heq, hne]

/-- The calls of a waiting task make requests of that task only. -/
theorem calls_moves (hn : n ≤ t) (calls : List TaskCall) :
    ∀ (e : Engine T) (ti : TaskInfo T), e.taskInfos t = some ti → t < e.nextTask →
      (e.ruleInfos ti.forRuleInfo).isInProgressWaiting = true →
      Ledger.Moves n (e.ledger held) ((calls.foldl (taskCall c t) e).ledger held) := by
  induction calls with
  | nil => exact fun e ti _ _ _ => .refl
  | cons call calls ih =>
    intro e ti ht hlt hw
    have hf := callFrame_taskCall (c := c) call ht hw
    obtain ⟨ti', ht', hk'⟩ := hf.task
    have hw' : ((taskCall c t e call).ruleInfos ti'.forRuleInfo).isInProgressWaiting = true := by
      rw [hf.ruleInfos, hk']
      exact hw
    have hstep : Ledger.Moves n (e.ledger held) ((taskCall c t e call).ledger held) ∧
        (taskCall c t e call).nextTask = e.nextTask := by
      rw [taskCall_eq call ht hw]
      cases hreq : call.toRequest t with
      | none =>
        refine ⟨?_, rfl⟩
        show Ledger.Moves n _ ((e.error call.errorMessage).ledger held)
        rw [ledger_error]
      | some r =>
        refine ⟨?_, rfl⟩
        show Ledger.Moves n _ ((e.enqueueRequest t r).ledger held)
        have hr := TaskCall.taskInfo_toRequest hreq
        rw [ledger_enqueueRequest e hr]
        exact .single (.request t r hn hlt hr)
    exact hstep.1.trans (ih (taskCall c t e call) ti' ht' (hstep.2 ▸ hlt) hw')

theorem callback_moves (hn : n ≤ t) {ti : TaskInfo T} (f : T → T × List TaskCall) (ht : e.taskInfos t = some ti)
    (hlt : t < e.nextTask) (hw : (e.ruleInfos ti.forRuleInfo).isInProgressWaiting = true) :
    Ledger.Moves n (e.ledger held) ((e.callback c t f).ledger held) := by
  rw [callback_eq f ht, ← ledger_modifyTask e t (f := fun ti' => { ti' with task := (f ti.task).1 }) (fun _ => rfl)]
  exact calls_moves hn _ (e.setTask t (f ti.task).1) _ (setTask_taskInfos _ ht) hlt hw

/-- A task that is registered has requested nothing and nothing is recorded for it. -/
theorem ledger_registerTask (hl : Linked e) (hk : (e.ruleInfos k).isInProgress = false)
    (hs : (e.ruleInfos k).isScanning = false) :
    (e.registerTask c w k).ledger held =
      { e.ledger held with
        recorded := Function.update (e.ledger held).recorded e.nextTask (some [])
        nextTask := e.nextTask + 1 } := by
  have hne : ∀ t ti, e.taskInfos t = some ti → ti.forRuleInfo ≠ k := by
    rintro t ti hti rfl
    rw [(hl.taskRule t ti hti).1] at hk
    exact absurd hk (by simp)
  refine Ledger.ext rfl rfl (funext fun k' => ?_) (funext fun t => ?_) (funext fun t => ?_) rfl
  · by_cases heq : k' = k
    · subst heq
      simp [ledger, registerTask, modifyRule, emit, RuleInfo.paused]
    · simp [ledger, registerTask, modifyRule, emit, heq]
  · by_cases heq : t = e.nextTask
    · subst heq
      simp [ledger, registerTask, modifyRule, emit]
    · cases hti : e.taskInfos t with
      | none => simp [ledger, registerTask, modifyRule, emit, heq, hti]
      | some ti => simp [ledger, registerTask, modifyRule, emit, heq, hti, hne t ti hti]
  · show ((e.registerTask c w k).askedBy t).map _ = (e.askedBy t).map _
    rw [askedBy_cons (e := e) rfl (fun _ => rfl) t]

theorem startTask_moves (hl : Linked e) (hk : (e.ruleInfos k).state = .needsToRun) :
    Ledger.Moves e.nextTask (e.ledger held)
      ((((e.registerTask c w k).callback c e.nextTask (c.start w)).providePriorValue c w k
        e.nextTask |>.scheduleIfReady e.nextTask).ledger held) := by
  have hreg : Ledger.Moves e.nextTask (e.ledger held) ((e.registerTask c w k).ledger held) := by
    rw [ledger_registerTask hl (not_isInProgress_of_state (by simp [hk]) (by simp [hk]))
      (by simp [isScanning, hk])]
    exact .single .register
  have ht₀ : (e.registerTask c w k).taskInfos e.nextTask
      = some { task := c.createTask w k, forRuleInfo := k } := by
    simp [registerTask, modifyRule, emit]
  have hw₀ : ((e.registerTask c w k).ruleInfos k).isInProgressWaiting = true := by
    simp [registerTask, modifyRule, emit, isInProgressWaiting]
  have hn₀ : e.nextTask < (e.registerTask c w k).nextTask := Nat.lt_succ_self _
  generalize e.registerTask c w k = e₀ at *
  generalize e.nextTask = t at *
  -- `task->start`
  have hstart : Ledger.Moves t (e₀.ledger held) ((e₀.callback c t (c.start w)).ledger held) :=
    callback_moves (le_refl t) (c.start w) ht₀ hn₀ hw₀
  obtain ⟨-, hf₁⟩ := callback_micros (c := c) (w := w) .none (c.start w) ht₀ hw₀
  have hn₁ := hstart.frame.2.2.1
  generalize e₀.callback c t (c.start w) = e₁ at *
  obtain ⟨ti₁, ht₁, hk₁⟩ : ∃ ti, e₁.taskInfos t = some ti ∧ ti.forRuleInfo = k := hf₁.task
  have hw₁ : (e₁.ruleInfos ti₁.forRuleInfo).isInProgressWaiting = true := by
    rw [hf₁.ruleInfos, hk₁]
    exact hw₀
  -- `task->providePriorValue`
  have hprior : Ledger.Moves t (e₁.ledger held) ((e₁.providePriorValue c w k t).ledger held) := by
    unfold providePriorValue
    dsimp only
    split_ifs
    · rw [← ledger_emit e₁ (.providedPriorValue t (e₁.ruleInfos k).result.value) (fun _ => rfl)]
      exact callback_moves (le_refl t) _ ht₁ (Nat.lt_of_lt_of_le hn₀ hn₁) hw₁
    · exact .refl
  rw [ledger_scheduleIfReady]
  exact hreg.trans (hstart.trans hprior)

theorem demandRule_moves (hl : Linked e) (hs : (e.ruleInfos k).isScanned e.currentEpoch = true) :
    Ledger.Moves e.nextTask (e.ledger held) ((e.demandRule c w k).1.ledger held) := by
  unfold demandRule
  split_ifs with hc hp hd
  · exact .refl
  · exact .refl
  · dsimp only
    rw [ledger_emit _ _ (fun _ => rfl), ledger_modifyRule_same k _ rfl rfl]
  · exact startTask_moves hl (state_eq_needsToRun hs hc hp hd)

theorem Micros.linked {s s' : Engine T × Held} (hm : Micros c w s s') (hl : Linked s.1) : Linked s'.1 := by
  induction hm with
  | refl => exact hl
  | tail _ hmicro ih => exact hmicro.linked ih

/-! ## Scanning -/

theorem ledger_finishScanRequest (hl : Linked e) {newState : StateKind} (hs : (e.ruleInfos k).isScanning = true) :
    (e.finishScanRequest k newState).trapped = true ∨
      (e.finishScanRequest k newState).ledger held = (e.ledger held).wake k := by
  unfold finishScanRequest
  cases hrec : (e.ruleInfos k).pendingScanRecord with
  | none => exact .inl rfl
  | some record =>
    right
    have hprog := isInProgress_of_scanning hs
    refine Ledger.ext ?_ rfl (funext fun k' => ?_) (funext fun t => ?_) rfl rfl
    · simp [ledger, wakeScanRecord, modifyRule, Ledger.wake, RuleInfo.paused, hrec]
    · by_cases heq : k' = k
      · subst heq
        simp [ledger, wakeScanRecord, modifyRule, Ledger.wake, RuleInfo.paused]
      · simp [ledger, wakeScanRecord, modifyRule, Ledger.wake, RuleInfo.paused, heq]
    · cases hti : e.taskInfos t with
      | none => simp [ledger, wakeScanRecord, modifyRule, wake, hti]
      | some ti =>
        have hne : ti.forRuleInfo ≠ k := by
          rintro rfl
          rw [(hl.taskRule t ti hti).1] at hprog
          exact absurd hprog (by simp)
        simp [ledger, wakeScanRecord, modifyRule, wake, hti, hne]

/-- A ledger after requests from tasks started in this step, and perhaps one wake. -/
def Ledger.Scanned (n : TaskID) (l l' : Ledger) : Prop :=
  ∃ l₁, Ledger.Moves n l l₁ ∧ (l' = l₁ ∨ ∃ k, l' = l₁.wake k)

theorem Ledger.Scanned.trans {l l₁ l' : Ledger} (hs : Ledger.Scanned n l₁ l') (hm : Ledger.Moves n l l₁) :
    Ledger.Scanned n l l' := by
  obtain ⟨l₂, hm₂, hor⟩ := hs
  exact ⟨l₂, hm.trans hm₂, hor⟩

theorem ledger_modifyScanRecord (e : Engine T) (k : KeyType) {f : RuleScanRecord → RuleScanRecord}
    (hf : ∀ record, (f record).pausedInputRequests = record.pausedInputRequests) :
    (e.modifyScanRecord k f).ledger held = e.ledger held := by
  unfold modifyScanRecord
  split
  · rfl
  · rename_i record hrec
    exact ledger_modifyRule_same k _ (by simp [RuleInfo.paused, hrec, hf]) rfl

theorem lookupScanInput_ruleInfo {request request' : RuleScanRequest} {input : KeyType}
    (h : e.lookupScanInput request = some (request', input)) : request'.ruleInfo = request.ruleInfo := by
  unfold lookupScanInput at h
  split at h
  · obtain ⟨rfl, -⟩ := Prod.mk.inj (some.inj h)
    rfl
  · split at h
    · exact absurd h (by simp)
    · obtain ⟨rfl, -⟩ := Prod.mk.inj (some.inj h)
      rfl

/-- The scan of one rule's inputs: tasks are started for them, and at the end the rule is woken. -/
theorem scanInputs_scanned (fuel : Nat) :
    ∀ (e : Engine T) (request : RuleScanRequest), Linked e → n ≤ e.nextTask →
      (e.ruleInfos request.ruleInfo).isScanning = true →
      (e.scanInputs c w fuel request).trapped = true ∨
        Ledger.Scanned n (e.ledger held) ((e.scanInputs c w fuel request).ledger held) := by
  induction fuel with
  | zero => exact fun e request _ _ _ => .inl rfl
  | succ fuel ih =>
    intro e request hl hn hk
    cases hlook : e.lookupScanInput request with
    | none =>
      simp only [scanInputs, hlook]
      exact .inl rfl
    | some found =>
      obtain ⟨request', input⟩ := found
      simp only [scanInputs, hlook]
      rw [← lookupScanInput_ruleInfo hlook] at hk
      -- scan the input
      have hscan := scanRule_spec c w {} e input
      have hl₁ : Linked (e.scanRule c w input).1 := Micros.linked hscan.micros hl
      have hled₁ : (e.scanRule c w input).1.ledger held = e.ledger held := ledger_scanRule hl input
      generalize (e.scanRule c w input).1 = e₁ at hscan hl₁ hled₁ ⊢
      generalize (e.scanRule c w input).2 = isScanned at hscan ⊢
      have hn₁ : n ≤ e₁.nextTask := hn.trans_eq (congrArg Ledger.nextTask hled₁).symm
      have hk₁ : (e₁.ruleInfos request'.ruleInfo).isScanning = true := by
        rw [hscan.frame.2 _ hk]
        exact hk
      rw [← hled₁]
      cases isScanned with
      | false =>
        simp only [Bool.not_false, if_true]
        refine .inr ⟨_, .refl, .inl (ledger_modifyScanRecord e₁ input (fun _ => rfl))⟩
      | true =>
        -- demand the input
        have hdem := demandRule_spec c w .none (by simp) (hscan.scanned rfl)
        have hl₂ : Linked (e₁.demandRule c w input).1 := Micros.linked hdem.micros hl₁
        have hmoves : Ledger.Moves n (e₁.ledger held) ((e₁.demandRule c w input).1.ledger held) :=
          (demandRule_moves hl₁ (hscan.scanned rfl)).mono hn₁
        simp only [Bool.not_true, Bool.false_eq_true, if_false]
        generalize (e₁.demandRule c w input).1 = e₂ at hdem hl₂ hmoves ⊢
        generalize (e₁.demandRule c w input).2 = isAvailable at hdem ⊢
        have hk₂ : (e₂.ruleInfos request'.ruleInfo).isScanning = true := by
          rw [hdem.frame.2 _ hk₁]
          exact hk₁
        have hfinish : ∀ newState, (e₂.finishScanRequest request'.ruleInfo newState).trapped = true ∨
            Ledger.Scanned n (e₁.ledger held) ((e₂.finishScanRequest request'.ruleInfo newState).ledger held) :=
          fun newState => (ledger_finishScanRequest hl₂ hk₂).imp id (fun h => ⟨_, hmoves, .inr ⟨_, h⟩⟩)
        split_ifs with h₁ h₂ h₃
        · exact .inr ⟨_, hmoves, .inl (ledger_modifyPendingTask e₂ input (fun _ => rfl))⟩
        · refine (hfinish .needsToRun).imp id (fun h => ?_)
          rw [ledger_emit _ _ (fun _ => rfl)]
          exact h
        · exact hfinish .doesNotNeedToRun
        · have hn₂ : n ≤ e₂.nextTask := hn₁.trans hmoves.frame.2.2.1
          exact (ih e₂ request'.next hl₂ hn₂ hk₂).imp id (fun h => h.trans hmoves)

theorem processRuleScanRequest_scanned (hl : Linked e) (request : RuleScanRequest) :
    (e.processRuleScanRequest c w request).trapped = true ∨
      Ledger.Scanned e.nextTask (e.ledger held) ((e.processRuleScanRequest c w request).ledger held) := by
  unfold processRuleScanRequest
  split_ifs with hk
  · exact scanInputs_scanned _ e request hl (le_refl _) hk
  · exact .inr ⟨_, .refl, .inl rfl⟩

end Builra
