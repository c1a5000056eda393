import Builra.Core.Micro

namespace Builra

open RuleInfo

/-!
# `Core.Decompose` — every step of the machine is a sequence of elementary moves

One lemma per operation: it either runs into undefined behaviour (`trapped`) or is a sequence of `Micro`
moves between states in which the engine thread holds nothing (`processRuleScanRequest_micros`,
`processInputRequest_micros`, …).
-/

variable {T W : Type} {c : Client T W} {w : W}

open Engine

/-! ## Callbacks -/

variable {e : Engine T} {t : TaskID} {ti : TaskInfo T} {k : KeyType} {epoch : Epoch}

theorem taskCall_eq (call : TaskCall) (ht : e.taskInfos t = some ti)
    (hw : (e.ruleInfos ti.forRuleInfo).isInProgressWaiting = true) :
    taskCall c t e call =
      (match call.toRequest t with
      | some request => e.enqueueRequest t request
      | none => e.error call.errorMessage) := by
  have hc : (e.ruleInfos ti.forRuleInfo).isInProgressComputing = false := by
    simp only [isInProgressWaiting, isInProgressComputing, decide_eq_true_eq,
      decide_eq_false_iff_not] at hw ⊢
    rw [hw]; simp
  cases call with
  | request key inputID | requestSingleUse key inputID =>
    by_cases h : inputID > kMaximumInputID <;>
      simp [taskCall, TaskCall.toRequest, addTaskInputRequest, h, ht, hw, TaskCall.errorMessage]
  | mustFollow key => simp [taskCall, TaskCall.toRequest, addTaskInputRequest, ht, hw]
  | discoveredDependency key =>
    simp [taskCall, TaskCall.toRequest, taskDiscoveredDependency, ht, hc, TaskCall.errorMessage]
  | complete value forceChange =>
    simp [taskCall, TaskCall.toRequest, taskIsComplete, ht, hc, TaskCall.errorMessage]

/-- What the calls of a waiting task leave alone. -/
structure CallFrame (t : TaskID) (k : KeyType) (e e' : Engine T) : Prop where
  ruleInfos : e'.ruleInfos = e.ruleInfos
  ruleKeys : e'.ruleKeys = e.ruleKeys
  currentEpoch : e'.currentEpoch = e.currentEpoch
  task : ∃ ti, e'.taskInfos t = some ti ∧ ti.forRuleInfo = k

theorem CallFrame.trans {e₁ e₂ e₃ : Engine T} (h₁ : CallFrame t k e₁ e₂) (h₂ : CallFrame t k e₂ e₃) :
    CallFrame t k e₁ e₃ :=
  ⟨h₂.ruleInfos.trans h₁.ruleInfos, h₂.ruleKeys.trans h₁.ruleKeys,
    h₂.currentEpoch.trans h₁.currentEpoch, h₂.task⟩

theorem callFrame_taskCall (call : TaskCall) (ht : e.taskInfos t = some ti)
    (hw : (e.ruleInfos ti.forRuleInfo).isInProgressWaiting = true) :
    CallFrame t ti.forRuleInfo e (taskCall c t e call) := by
  rw [taskCall_eq call ht hw]
  cases call.toRequest t with
  | none => exact ⟨rfl, rfl, rfl, ti, ht, rfl⟩
  | some request =>
    exact ⟨rfl, rfl, rfl, { ti with waitCount := ti.waitCount + 1 },
      by simp [enqueueRequest, modifyTask, emit, ht], rfl⟩

theorem calls_micros (item : HeldItem) (calls : List TaskCall) :
    ∀ (e : Engine T) (ti : TaskInfo T), e.taskInfos t = some ti →
      (e.ruleInfos ti.forRuleInfo).isInProgressWaiting = true →
      Micros c w (e, { item := item, task := some t, started := true, calls := calls })
        (calls.foldl (taskCall c t) e, { item := item, task := some t, started := true }) ∧
      CallFrame t ti.forRuleInfo e (calls.foldl (taskCall c t) e) := by
  induction calls with
  | nil => intro e ti ht _; exact ⟨.refl, rfl, rfl, rfl, ti, ht, rfl⟩
  | cons call calls ih =>
    intro e ti ht hw
    have hf := callFrame_taskCall (c := c) call ht hw
    obtain ⟨ti', ht', hk'⟩ := hf.task
    have hw' : ((taskCall c t e call).ruleInfos ti'.forRuleInfo).isInProgressWaiting = true := by
      rw [hf.ruleInfos, hk']; exact hw
    obtain ⟨hm, hf'⟩ := ih (taskCall c t e call) ti' ht' hw'
    rw [hk'] at hf'
    refine ⟨.head ?_ hm, hf.trans hf'⟩
    rw [taskCall_eq call ht hw]
    cases hr : call.toRequest t with
    | none => exact .callError t call hr
    | some request => exact .callRequest t ti call request ht hw hr

/-- A callback replaces the task object and then makes its calls. -/
theorem callback_eq (f : T → T × List TaskCall) (ht : e.taskInfos t = some ti) :
    e.callback c t f = (f ti.task).2.foldl (taskCall c t) (e.setTask t (f ti.task).1) := by
  simp only [callback, ht, setTask]

theorem setTask_taskInfos (task : T) (ht : e.taskInfos t = some ti) :
    (e.setTask t task).taskInfos t = some { ti with task := task } := by
  simp [setTask, modifyTask, ht]

/-- The calls a callback makes, after its object was replaced. -/
theorem callback_micros (item : HeldItem) (f : T → T × List TaskCall) (ht : e.taskInfos t = some ti)
    (hw : (e.ruleInfos ti.forRuleInfo).isInProgressWaiting = true) :
    Micros c w
      (e.setTask t (f ti.task).1,
        { item := item, task := some t, started := true, calls := (f ti.task).2 })
      (e.callback c t f, { item := item, task := some t, started := true }) ∧
    CallFrame t ti.forRuleInfo e (e.callback c t f) := by
  rw [callback_eq f ht]
  obtain ⟨hm, hf⟩ := calls_micros (c := c) (w := w) item (f ti.task).2
    (e.setTask t (f ti.task).1) { ti with task := (f ti.task).1 } (setTask_taskInfos _ ht) hw
  exact ⟨hm, hf.ruleInfos, hf.ruleKeys, hf.currentEpoch, hf.task⟩

/-! ## `scanRule` and `demandRule` -/

/-- The entry of every scanning rule is left alone. -/
def ScanFrame (e e' : Engine T) : Prop :=
  e'.currentEpoch = e.currentEpoch ∧
    ∀ k, (e.ruleInfos k).isScanning = true → e'.ruleInfos k = e.ruleInfos k

theorem ScanFrame.refl (e : Engine T) : ScanFrame e e := ⟨rfl, fun _ _ => rfl⟩

theorem ScanFrame.trans {e₁ e₂ e₃ : Engine T} (h₁ : ScanFrame e₁ e₂) (h₂ : ScanFrame e₂ e₃) :
    ScanFrame e₁ e₃ :=
  ⟨h₂.1.trans h₁.1, fun k hk => by rw [h₂.2 k (by rw [h₁.2 k hk]; exact hk), h₁.2 k hk]⟩

theorem ScanFrame.congr {e' e'' : Engine T} (h : ScanFrame e e') (hr : e''.ruleInfos = e'.ruleInfos)
    (he : e''.currentEpoch = e'.currentEpoch) : ScanFrame e e'' :=
  ⟨he.trans h.1, fun k hk => by rw [hr, h.2 k hk]⟩

theorem not_isScanning_of_isScanned {r : RuleInfo} (h : r.isScanned epoch = true) :
    r.isScanning = false := by
  unfold isScanned at h
  cases hs : r.state <;> simp_all [isScanning, StateKind.pastScanning]

theorem modifyRule_ruleInfos_self (e : Engine T) (k : KeyType) (f : RuleInfo → RuleInfo) :
    (e.modifyRule k f).ruleInfos k = f (e.ruleInfos k) := by
  simp [modifyRule]

theorem modifyRule_ruleInfos_ne (e : Engine T) {k' : KeyType} (f : RuleInfo → RuleInfo) (h : k' ≠ k) :
    (e.modifyRule k f).ruleInfos k' = e.ruleInfos k' := by
  simp [modifyRule, h]

/-- Writing to a rule that is not being scanned. -/
theorem scanFrame_modifyRule (f : RuleInfo → RuleInfo) (hk : (e.ruleInfos k).isScanning = false) :
    ScanFrame e (e.modifyRule k f) := by
  refine ⟨rfl, fun k' hk' => modifyRule_ruleInfos_ne e f ?_⟩
  rintro rfl
  rw [hk] at hk'
  exact absurd hk' (by simp)

/-- What `scanRule` returns tells the state of the rule. -/
structure ScanSpec (c : Client T W) (w : W) (h : Held) (k : KeyType) (e e' : Engine T)
    (isScanned : Bool) : Prop where
  micros : Micros c w (e, h) (e', h)
  frame : ScanFrame e e'
  scanned : isScanned = true → (e'.ruleInfos k).isScanned e'.currentEpoch = true
  scanning : isScanned = false → (e'.ruleInfos k).isScanning = true

/-- The entry `startScan` works with. -/
private def cleaned (r : RuleInfo) : RuleInfo :=
  { r with
    result := { r.result with dependencies := cleanSingleUseDependencies r.result.dependencies }
    wasForced := false }

theorem untouched_cleaned {r : RuleInfo} (h : r.Untouched epoch) :
    (cleaned r).Untouched epoch := h

theorem startScan_spec (h : Held) (hu : (e.ruleInfos k).Untouched e.currentEpoch) :
    ScanSpec c w h k e (e.startScan c w k).1 (e.startScan c w k).2 := by
  have hclean : Micros c w (e, h)
      ((e.modifyRule k cleaned).emit (.updateStatus k .isScanning), h) :=
    .tail (.single (.cleanRule k hu)) (.report _ rfl)
  have hframe : ScanFrame e ((e.modifyRule k cleaned).emit (.updateStatus k .isScanning)) :=
    (scanFrame_modifyRule cleaned hu.2).congr rfl rfl
  have hself : ((e.modifyRule k cleaned).emit (.updateStatus k .isScanning)).ruleInfos k
      = cleaned (e.ruleInfos k) := modifyRule_ruleInfos_self e k cleaned
  have heq : e.startScan c w k =
      (let e₁ := (e.modifyRule k cleaned).emit (.updateStatus k .isScanning)
       let needsToRun (reason : Rule.RunReason) : Engine T × Bool :=
         ((e₁.modifyRule k (fun r => { r with state := .needsToRun })).emit
           (.determinedRuleNeedsToRun k reason none), true)
       let result := (e₁.ruleInfos k).result
       if result.builtAt = 0 then needsToRun .neverBuilt
       else if c.signature k ≠ result.signature then needsToRun .signatureChanged
       else if !c.isResultValid w k result.value then needsToRun .invalidValue
       else if result.dependencies.isEmpty then
         (e₁.modifyRule k (fun r => { r with state := .doesNotNeedToRun }), true)
       else
         ({ e₁.modifyRule k (fun r =>
             { r with state := .isScanning, pendingScanRecord := some {} }) with
           ruleInfosToScan :=
             { ruleInfo := k, inputIndex := 0, inputRuleInfo := none } :: e₁.ruleInfosToScan },
           false)) := rfl
  generalize (e.modifyRule k cleaned).emit (.updateStatus k .isScanning) = e₁ at *
  have hu₁ : (e₁.ruleInfos k).Untouched e₁.currentEpoch := by
    rw [hself, hframe.1]; exact untouched_cleaned hu
  have hsingle : ∀ d ∈ (e₁.ruleInfos k).result.dependencies, d.singleUse = false := by
    intro d hd
    rw [hself] at hd
    simpa using (List.mem_filter.mp hd).2
  -- every reason to run leaves by the same door
  have hrun : ∀ reason, ¬ e₁.Reusable c w k →
      ScanSpec c w h k e ((e₁.modifyRule k (fun r => { r with state := .needsToRun })).emit
        (.determinedRuleNeedsToRun k reason none)) true := by
    intro reason hr
    refine ⟨(hclean.tail (.scanNeedsToRun k hu₁ hr)).tail (.report _ rfl),
      hframe.trans ((scanFrame_modifyRule (fun r => { r with state := .needsToRun }) hu₁.2).congr
        rfl rfl), fun _ => ?_,
      fun hf => absurd hf (by simp)⟩
    simp [emit, modifyRule, isScanned, StateKind.pastScanning]
  rw [heq]
  dsimp only
  split_ifs with hb hs hv hd
  · exact hrun _ (fun hr => hr.1 hb)
  · exact hrun _ (fun hr => hs hr.2.1)
  · exact hrun _ (fun hr => by simp [hr.2.2] at hv)
  · have hr : e₁.Reusable c w k := ⟨hb, not_not.mp hs, by simpa using hv⟩
    refine ⟨hclean.tail (.scanUpToDate k hu₁ hr (List.isEmpty_iff.mp hd)),
      hframe.trans (scanFrame_modifyRule _ hu₁.2), fun _ => ?_, fun hf => absurd hf (by simp)⟩
    simp [modifyRule, isScanned, StateKind.pastScanning]
  · have hr : e₁.Reusable c w k := ⟨hb, not_not.mp hs, by simpa using hv⟩
    refine ⟨hclean.tail (.scanScheduled k hu₁ hr (by simpa using hd) hsingle),
      hframe.trans ((scanFrame_modifyRule (fun r =>
        { r with state := .isScanning, pendingScanRecord := some {} }) hu₁.2).congr rfl rfl),
      fun hf => absurd hf (by simp),
      fun _ => ?_⟩
    simp [modifyRule, isScanning]

theorem scanRule_spec (c : Client T W) (w : W) (h : Held) (e : Engine T) (k : KeyType) :
    ScanSpec c w h k e (e.scanRule c w k).1 (e.scanRule c w k).2 := by
  unfold scanRule
  split_ifs with hs hc
  · exact ⟨.refl, .refl e, fun _ => hs, fun hf => absurd hf (by simp)⟩
  · exact ⟨.refl, .refl e, fun hf => absurd hf (by simp), fun _ => hc⟩
  · exact startScan_spec h ⟨by simpa using hs, by simpa using hc⟩

/-- What `demandRule` returns tells the state of the rule. -/
structure DemandSpec (c : Client T W) (w : W) (item : HeldItem) (k : KeyType) (e e' : Engine T)
    (isAvailable : Bool) : Prop where
  micros : Micros c w (e, { item := item }) (e', { item := item })
  frame : ScanFrame e e'
  available : isAvailable = true → (e'.ruleInfos k).Done e'.currentEpoch
  pending : isAvailable = false → (e'.ruleInfos k).isInProgress = true

/-- A rule that was scanned and is neither complete, in progress nor up to date has to run. -/
theorem state_eq_needsToRun {r : RuleInfo} (hs : r.isScanned epoch = true) (hc : ¬ r.isComplete epoch = true)
    (hp : ¬ r.isInProgress = true) (hd : ¬ r.state = .doesNotNeedToRun) : r.state = .needsToRun := by
  simp only [isScanned, isInProgress, isInProgressWaiting,
    isInProgressComputing, Bool.or_eq_true, decide_eq_true_eq, not_or] at hs hp
  cases h : r.state <;> simp_all [StateKind.pastScanning]

/-- Starting the task of a rule that has to run. -/
theorem startTask_spec {item : HeldItem} (hitem : ∀ request, item ≠ .finishedRequest request)
    (hk : (e.ruleInfos k).state = .needsToRun) :
    DemandSpec c w item k e
      (((e.registerTask c w k).callback c e.nextTask (c.start w)).providePriorValue c w k
        e.nextTask |>.scheduleIfReady e.nextTask) false := by
  have hreg : Micro c w (e, { item := item })
      (e.registerTask c w k, { item := item, task := some e.nextTask }) := .registerTask k hk hitem
  have ht₀ : (e.registerTask c w k).taskInfos e.nextTask
      = some { task := c.createTask w k, forRuleInfo := k } := by
    simp [registerTask, modifyRule, emit]
  have hr₀ : (e.registerTask c w k).ruleInfos k =
      { e.ruleInfos k with
        state := .inProgressWaiting, pendingTaskInfo := some e.nextTask,
        result := { (e.ruleInfos k).result with dependencies := [] } } := by
    simp [registerTask, modifyRule, emit]
  have hf₀ : ScanFrame e (e.registerTask c w k) :=
    (scanFrame_modifyRule (fun r =>
      { r with
        state := .inProgressWaiting, pendingTaskInfo := some e.nextTask,
        result := { r.result with dependencies := [] } })
      (by simp [isScanning, hk])).congr rfl rfl
  generalize e.registerTask c w k = e₀ at *
  generalize e.nextTask = t at *
  have hw₀ : (e₀.ruleInfos k).isInProgressWaiting = true := by
    rw [hr₀]; simp [isInProgressWaiting]
  -- `task->start`
  obtain ⟨hm₁, hf₁⟩ := callback_micros (c := c) (w := w) item (c.start w) ht₀ hw₀
  have hstart := Relation.ReflTransGen.head
    (Micro.start (c := c) (w := w) item t _ ht₀ hitem rfl rfl) hm₁
  generalize e₀.callback c t (c.start w) = e₁ at *
  obtain ⟨ti₁, ht₁, hk₁⟩ : ∃ ti, e₁.taskInfos t = some ti ∧ ti.forRuleInfo = k := hf₁.task
  have hw₁ : (e₁.ruleInfos ti₁.forRuleInfo).isInProgressWaiting = true := by
    rw [hf₁.ruleInfos, hk₁]; exact hw₀
  -- `task->providePriorValue`
  obtain ⟨hm₂, hf₂⟩ : Micros c w (e₁, { item := item, task := some t, started := true })
      (e₁.providePriorValue c w k t, { item := item, task := some t, started := true }) ∧
      CallFrame t k e₁ (e₁.providePriorValue c w k t) := by
    unfold providePriorValue
    dsimp only
    split_ifs with hp
    · obtain ⟨hm, hf⟩ := callback_micros (c := c) (w := w) item
        (e := e₁.emit (.providedPriorValue t (e₁.ruleInfos k).result.value))
        (fun task => c.providePriorValue w task (e₁.ruleInfos k).result.value) ht₁ hw₁
      refine ⟨.head (.report (.providedPriorValue t (e₁.ruleInfos k).result.value) rfl)
        (.head ?_ hm), ?_⟩
      · exact .providePriorValue t ti₁ (e₁.ruleInfos k).result.value ht₁ hitem
      · rw [hk₁] at hf
        exact ⟨hf.ruleInfos, hf.ruleKeys, hf.currentEpoch, hf.task⟩
    · exact ⟨.refl, rfl, rfl, rfl, ti₁, ht₁, hk₁⟩
  generalize e₁.providePriorValue c w k t = e₂ at *
  obtain ⟨ti₂, ht₂, hk₂⟩ := hf₂.task
  have hrules : e₂.ruleInfos = e₀.ruleInfos := hf₂.ruleInfos.trans hf₁.ruleInfos
  have hepoch : e₂.currentEpoch = e₀.currentEpoch := hf₂.currentEpoch.trans hf₁.currentEpoch
  have hall : Micros c w (e, { item := item })
      (e₂, { item := item, task := some t, started := true }) := .head hreg (hstart.trans hm₂)
  -- `scheduleIfReady`
  have hsched : Micros c w (e, { item := item }) (e₂.scheduleIfReady t, { item := item }) ∧
      (e₂.scheduleIfReady t).ruleInfos = e₀.ruleInfos ∧
      (e₂.scheduleIfReady t).currentEpoch = e₀.currentEpoch := by
    unfold scheduleIfReady
    rw [ht₂]
    dsimp only
    split_ifs with hz
    · exact ⟨hall.tail (.scheduleReady t ti₂ ht₂ hitem hz), hrules, hepoch⟩
    · exact ⟨hall.tail (.scheduleWaiting t ti₂ ht₂ hitem hz), hrules, hepoch⟩
  obtain ⟨hm, hr, he⟩ := hsched
  refine ⟨hm, ⟨he.trans hf₀.1, fun k' hk' => by rw [hr, hf₀.2 k' hk']⟩, fun h => absurd h (by simp),
    fun _ => ?_⟩
  rw [hr]
  simp only [isInProgress, hw₀, Bool.true_or]

theorem demandRule_spec (c : Client T W) (w : W) (item : HeldItem)
    (hitem : ∀ request, item ≠ .finishedRequest request) (hs : (e.ruleInfos k).isScanned e.currentEpoch = true) :
    DemandSpec c w item k e (e.demandRule c w k).1 (e.demandRule c w k).2 := by
  unfold demandRule
  split_ifs with hc hp hd
  · exact ⟨.refl, .refl e, fun _ => hc, fun hf => absurd hf (by simp)⟩
  · exact ⟨.refl, .refl e, fun hf => absurd hf (by simp), fun _ => hp⟩
  · refine ⟨.tail (.single (.markUpToDate k hd)) (.report _ rfl),
      (scanFrame_modifyRule (fun r => r.setComplete e.currentEpoch)
        (not_isScanning_of_isScanned hs)).congr rfl rfl, fun _ => ?_, fun hf => absurd hf (by simp)⟩
    simp [RuleInfo.Done, emit, modifyRule, setComplete, isComplete]
  · exact startTask_spec hitem (state_eq_needsToRun hs hc hp hd)

/-! ## The queue operations -/

/-- The operation ran into undefined behaviour, or it is a sequence of moves that ends with empty hands. -/
def Runs (c : Client T W) (w : W) (s : Engine T × Held) (e : Engine T) : Prop :=
  e.trapped = true ∨ Micros c w s (e, {})

theorem Runs.head {s s' : Engine T × Held} (hm : Micros c w s s') (hr : Runs c w s' e) : Runs c w s e :=
  hr.imp id hm.trans

theorem finishScanRequest_cases (e : Engine T) (k : KeyType) (newState : StateKind) :
    (e.finishScanRequest k newState).trapped = true ∨
      ∃ record, (e.ruleInfos k).pendingScanRecord = some record ∧
        e.finishScanRequest k newState = e.wakeScanRecord k record newState := by
  unfold finishScanRequest
  cases (e.ruleInfos k).pendingScanRecord with
  | none => exact .inl rfl
  | some record => exact .inr ⟨record, rfl, rfl⟩

theorem scanInputs_runs (fuel : Nat) : ∀ (e : Engine T) (request : RuleScanRequest),
    (e.ruleInfos request.ruleInfo).isScanning = true →
    Runs c w (e, { item := .scanRequest request }) (scanInputs c w fuel e request) := by
  induction fuel with
  | zero => intro e request _; exact .inl rfl
  | succ fuel ih =>
    intro e request hk
    -- the input, cached or looked up
    obtain hnone | ⟨request', input, heq, hin, hrule, hm₀⟩ :
        e.lookupScanInput request = none ∨ ∃ request' input,
          e.lookupScanInput request = some (request', input) ∧
          request'.inputRuleInfo = some input ∧ request'.ruleInfo = request.ruleInfo ∧
          Micros c w (e, { item := .scanRequest request }) (e, { item := .scanRequest request' }) := by
      unfold lookupScanInput
      cases hi : request.inputRuleInfo with
      | some input => exact .inr ⟨request, input, rfl, hi, rfl, .refl⟩
      | none =>
        cases hd : (e.ruleInfos request.ruleInfo).result.dependencies[request.inputIndex]? with
        | none => exact .inl rfl
        | some d =>
          exact .inr ⟨request.lookup d, d.keyID, rfl, rfl, rfl,
            .single (.lookupScanInput request d hk hi hd)⟩
    · simp only [scanInputs, hnone]; exact .inl rfl
    refine .head hm₀ ?_
    simp only [scanInputs, heq]
    rw [← hrule] at hk
    -- scan the input
    have hscan := scanRule_spec c w { item := .scanRequest request' } e input
    generalize (e.scanRule c w input).1 = e₁ at hscan ⊢
    generalize (e.scanRule c w input).2 = isScanned at hscan ⊢
    refine .head hscan.micros ?_
    have hk₁ : (e₁.ruleInfos request'.ruleInfo).isScanning = true := by
      rw [hscan.frame.2 _ hk]; exact hk
    cases isScanned with
    | false =>
      have hs := hscan.scanning rfl
      simp only [Bool.not_false, if_true, modifyScanRecord]
      cases hrec : (e₁.ruleInfos input).pendingScanRecord with
      | none => exact .inl rfl
      | some record => exact .inr (.single (.deferOnScan request' input record hk₁ hin hs hrec))
    | true =>
      -- demand the input
      have hdem := demandRule_spec c w (.scanRequest request') (by simp) (hscan.scanned rfl)
      simp only [Bool.not_true, Bool.false_eq_true, if_false]
      generalize (e₁.demandRule c w input).1 = e₂ at hdem ⊢
      generalize (e₁.demandRule c w input).2 = isAvailable at hdem ⊢
      refine .head hdem.micros ?_
      have hk₂ : (e₂.ruleInfos request'.ruleInfo).isScanning = true := by
        rw [hdem.frame.2 _ hk₁]; exact hk₁
      cases isAvailable with
      | false =>
        have hp := hdem.pending rfl
        simp only [Bool.not_false, if_true, modifyPendingTask]
        cases ht : (e₂.ruleInfos input).pendingTaskInfo with
        | none => exact .inl rfl
        | some t => exact .inr (.single (.deferOnTask request' input t hk₂ hin hp ht))
      | true =>
        have hd := hdem.available rfl
        simp only [Bool.not_true, Bool.false_eq_true, if_false]
        split_ifs with hnew hlast
        · obtain htrap | ⟨record, hrec, hfin⟩ :=
            finishScanRequest_cases e₂ request'.ruleInfo .needsToRun
          · exact .inl htrap
          · rw [hfin]
            refine .inr (.tail (.single ?_) (.report _ rfl))
            refine .finishScanRun request' input record hk₂ hin hd ?_ hrec
            simp only [Bool.and_eq_true, Bool.not_eq_true', decide_eq_true_eq] at hnew
            rintro (ho | hle)
            · rw [ho] at hnew; exact absurd hnew.1 (by simp)
            · exact Nat.not_le_of_lt hnew.2 hle
        all_goals
          have hnr : e₂.NotRebuilt request'.ruleInfo input request'.orderOnly := by
            simp only [Bool.and_eq_true, Bool.not_eq_true', decide_eq_true_eq, not_and,
              not_lt] at hnew
            by_cases ho : request'.orderOnly = true
            · exact .inl ho
            · exact .inr (hnew (by simpa using ho))
        · obtain htrap | ⟨record, hrec, hfin⟩ :=
            finishScanRequest_cases e₂ request'.ruleInfo .doesNotNeedToRun
          · exact .inl htrap
          · rw [hfin]
            exact .inr (.single (.finishScanUpToDate request' input record hk₂ hin hd hnr hlast hrec))
        · exact .head (.single (.advanceScan request' input hk₂ hin hd hnr hlast))
            (ih e₂ request'.next hk₂)

theorem processRuleScanRequest_runs {request : RuleScanRequest} {rest : List RuleScanRequest}
    (h : e.ruleInfosToScan = request :: rest) :
    Runs c w (e, {}) ({ e with ruleInfosToScan := rest }.processRuleScanRequest c w request) := by
  refine .head (.single (.popScan request rest h)) ?_
  unfold processRuleScanRequest
  split_ifs with hs
  · exact scanInputs_runs _ _ _ hs
  · exact .inr (.single (.dropScan request (by simpa using hs)))

theorem processInputRequest_runs {request : TaskInputRequest} {rest : List TaskInputRequest}
    (h : e.inputRequests = request :: rest) :
    Runs c w (e, {}) ({ e with inputRequests := rest }.processInputRequest c w request) := by
  refine .head (.single (.popInput request rest h)) ?_
  generalize { e with inputRequests := rest } = e₀
  unfold processInputRequest
  have hscan := scanRule_spec c w { item := .inputRequest request } e₀ request.inputRuleInfo
  dsimp only
  generalize (e₀.scanRule c w request.inputRuleInfo).1 = e₁ at hscan ⊢
  generalize (e₀.scanRule c w request.inputRuleInfo).2 = isScanned at hscan ⊢
  refine .head hscan.micros ?_
  cases isScanned with
  | false =>
    have hs := hscan.scanning rfl
    simp only [Bool.not_false, if_true, modifyScanRecord]
    cases hrec : (e₁.ruleInfos request.inputRuleInfo).pendingScanRecord with
    | none => exact .inl rfl
    | some record => exact .inr (.single (.pauseInput request record hs hrec))
  | true =>
    have hdem := demandRule_spec c w (.inputRequest request) (by simp) (hscan.scanned rfl)
    simp only [Bool.not_true, Bool.false_eq_true, if_false]
    generalize (e₁.demandRule c w request.inputRuleInfo).1 = e₂ at hdem ⊢
    generalize (e₁.demandRule c w request.inputRuleInfo).2 = isAvailable at hdem ⊢
    refine .head hdem.micros ?_
    have hstate : (e₂.ruleInfos request.inputRuleInfo).Done e₂.currentEpoch ∨
        (e₂.ruleInfos request.inputRuleInfo).isInProgress = true := by
      cases isAvailable with
      | false => exact .inr (hdem.pending rfl)
      | true => exact .inl (hdem.available rfl)
    cases htask : request.taskInfo with
    | none => exact .inr (.single (.dropDummy request htask hstate))
    | some t =>
      cases ht : e₂.taskInfos t with
      | none => simp only [ht]; exact .inl rfl
      | some ti =>
        simp only [ht]
        cases isAvailable with
        | true =>
          exact .inr (.single (.recordAvailable request t ti htask ht (hdem.available rfl)))
        | false =>
          simp only [Bool.false_eq_true, if_false, modifyPendingTask]
          have hpend : ((e₂.recordDependency ti.forRuleInfo request).ruleInfos
              request.inputRuleInfo).pendingTaskInfo
              = (e₂.ruleInfos request.inputRuleInfo).pendingTaskInfo := by
            by_cases hk : request.inputRuleInfo = ti.forRuleInfo
            · simp [recordDependency, modifyRule, hk]
            · simp [recordDependency, modifyRule, hk]
          rw [hpend]
          cases ht' : (e₂.ruleInfos request.inputRuleInfo).pendingTaskInfo with
          | none => exact .inl rfl
          | some t' =>
            exact .inr (.single (.recordPending request t ti t' htask ht (hdem.pending rfl) ht'))

theorem processFinishedInputRequest_runs {request : TaskInputRequest} {rest : List TaskInputRequest}
    (h : e.finishedInputRequests = request :: rest)
    (hwait : ∀ t ti, request.taskInfo = some t → e.taskInfos t = some ti →
      (e.ruleInfos ti.forRuleInfo).isInProgressWaiting = true) :
    Runs c w (e, {})
      ({ e with finishedInputRequests := rest }.processFinishedInputRequest c w request) := by
  unfold processFinishedInputRequest
  cases htask : request.taskInfo with
  | none => exact .inl rfl
  | some t =>
    have hpop := Micro.popFinished (c := c) (w := w) request rest t h htask
    refine .head (.single hpop) ?_
    dsimp only
    cases ht : e.taskInfos t with
    | none =>
      refine .inl ?_
      split_ifs with ho
      · simp [decrementTaskWaitCount, scheduleIfReady, modifyTask, emit, ht, trap]
      · simp [decrementTaskWaitCount, scheduleIfReady, modifyTask, emit, ht, trap, callback]
    | some ti =>
      have hw := hwait t ti htask ht
      split_ifs with ho
      · exact .inr (.single (.decrement request t ti ht htask (by simp [ho])))
      · have ht' : ({ e with finishedInputRequests := rest }.emit (.completedTaskInputRequest request
            (e.ruleInfos request.inputRuleInfo).result.value)).taskInfos t = some ti := ht
        obtain ⟨hm, hf⟩ := callback_micros (c := c) (w := w) (.finishedRequest request)
          (fun task => c.provideValue w task request.inputID request.inputRuleInfo
            (e.ruleInfos request.inputRuleInfo).result.value) ht' hw
        obtain ⟨ti', hti', -⟩ := hf.task
        refine .inr (.head ?_ (hm.tail (.decrement request t ti' hti' htask (by simp [ho]))))
        exact .provideValue request t ti ht' htask (by simpa using ho)

theorem processReadyTask_runs {rest : List TaskID} (h : e.readyTaskInfos = t :: rest) :
    Runs c w (e, {}) ({ e with readyTaskInfos := rest }.processReadyTask c w t) := by
  unfold processReadyTask
  cases ht : e.taskInfos t with
  | none => exact .inl rfl
  | some ti => exact .inr (.single (.popReady t rest ti h ht))

/-- A finished task whose result the database took, or which has no database to go to. -/
theorem processFinishedTask_runs {rest : List TaskID} (h : e.finishedTaskInfos = t :: rest)
    (hs : ({ e with finishedTaskInfos := rest }.processFinishedTask c w t).2 = true) :
    Runs c w (e, {}) ({ e with finishedTaskInfos := rest }.processFinishedTask c w t).1 := by
  unfold processFinishedTask at hs ⊢
  cases ht : e.taskInfos t with
  | none => exact .inl rfl
  | some ti =>
    simp only [ht] at hs ⊢
    have hm := fun db => Micro.finishTask (c := c) (w := w) t rest ti db h ht
    have hdb : ({ e with finishedTaskInfos := rest }.completeRule ti).db = e.db := rfl
    generalize { e with finishedTaskInfos := rest }.completeRule ti = e₁ at hs hm hdb ⊢
    rw [← hdb] at hm
    obtain ⟨db₁, hdb₁⟩ : ∃ db₁, e₁.db = db₁ := ⟨_, rfl⟩
    cases db₁ with
    | none =>
      have heq : { e₁ with db := none } = e₁ := by rw [← hdb₁]
      have hm₁ := hm none (by rw [hdb₁]; rfl)
      rw [heq] at hm₁
      simp only [hdb₁]
      exact .inr (.single hm₁)
    | some db =>
      simp only [hdb₁] at hs ⊢
      cases hw : c.setRuleResultError w ti.forRuleInfo with
      | none => exact .inr (.single (hm _ (by rw [hdb₁]; rfl)))
      | some message => simp [hw] at hs

end Builra
