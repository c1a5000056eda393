import Builra.Core.Decompose

namespace Builra

open RuleInfo List

/-!
# `Core.Linked` — rules, tasks and their records belong together

`Linked` is the structural invariant of the tables: every registered task is the pending task of a rule in
progress and conversely, scan records exist only for scanning rules, and everything that waits in a record
or at a task waits for that rule. Every elementary move keeps it (`Micro.linked`).
-/

variable {T W : Type} {c : Client T W} {w : W}

open Engine

/-- What waits in the scan record of rule `k` waits for `k`. -/
structure RuleInfo.Wf (k : KeyType) (r : RuleInfo) : Prop where
  scanning : r.pendingScanRecord ≠ none → r.isScanning = true
  paused : ∀ record, r.pendingScanRecord = some record →
    ∀ q ∈ record.pausedInputRequests, q.inputRuleInfo = k
  deferred : ∀ record, r.pendingScanRecord = some record →
    ∀ q ∈ record.deferredScanRequests, q.inputRuleInfo = some k

/-- What waits at a task waits for its rule. -/
structure TaskInfo.Wf (ti : TaskInfo T) : Prop where
  requestedBy : ∀ q ∈ ti.requestedBy, q.inputRuleInfo = ti.forRuleInfo
  deferred : ∀ q ∈ ti.deferredScanRequests, q.inputRuleInfo = some ti.forRuleInfo

/-- **The structural invariant.** -/
structure Linked (e : Engine T) : Prop where
  fresh : ∀ t, e.nextTask ≤ t → e.taskInfos t = none
  taskRule : ∀ t ti, e.taskInfos t = some ti →
    (e.ruleInfos ti.forRuleInfo).isInProgress = true ∧
      (e.ruleInfos ti.forRuleInfo).pendingTaskInfo = some t
  ruleTask : ∀ k, (e.ruleInfos k).isInProgress = true →
    ∃ t ti, (e.ruleInfos k).pendingTaskInfo = some t ∧ e.taskInfos t = some ti ∧ ti.forRuleInfo = k
  rule : ∀ k, (e.ruleInfos k).Wf k
  task : ∀ t ti, e.taskInfos t = some ti → ti.Wf
  keys : ∀ k, k ∉ e.ruleKeys →
    (e.ruleInfos k).state = .incomplete ∧ (e.ruleInfos k).pendingScanRecord = none

/-! ## The tables, one write at a time -/

variable {k : KeyType} {r : RuleInfo} {e e' : Engine T} {f : RuleInfo → RuleInfo} {t : TaskID} {ti : TaskInfo T}

theorem RuleInfo.Wf.of_none (h : r.pendingScanRecord = none) : r.Wf k := by
  refine ⟨fun hne => absurd h hne, ?_, ?_⟩ <;>
  · intro record hr
    rw [h] at hr
    exact absurd hr (by simp)

/-- A rule that is not being scanned has no record. -/
theorem RuleInfo.Wf.record_eq_none (h : r.Wf k) (hs : r.isScanning = false) : r.pendingScanRecord = none := by
  by_contra hne
  rw [h.scanning hne] at hs
  exact absurd hs (by simp)

/-- Neither state nor record change. -/
theorem RuleInfo.Wf.congr {r' : RuleInfo} (h : r.Wf k) (hr : r'.pendingScanRecord = r.pendingScanRecord)
    (hs : r'.state = r.state) : r'.Wf k := by
  refine ⟨fun hne => ?_, fun record h' => h.paused record (hr ▸ h'),
    fun record h' => h.deferred record (hr ▸ h')⟩
  rw [isScanning, hs]
  exact h.scanning (hr ▸ hne)

/-- Neither the record nor the state change, and the rule is not being scanned afterwards. -/
theorem RuleInfo.Wf.of_not_scanning {r' : RuleInfo} (h : r.Wf k) (hs : r.isScanning = false)
    (hr : r'.pendingScanRecord = r.pendingScanRecord) : r'.Wf k :=
  .of_none (hr.trans (h.record_eq_none hs))

theorem Linked.congr (h : Linked e) (hn : e'.nextTask = e.nextTask) (ht : e'.taskInfos = e.taskInfos)
    (hr : e'.ruleInfos = e.ruleInfos) (hk : e'.ruleKeys = e.ruleKeys) : Linked e' := by
  constructor
  · rw [hn, ht]; exact h.fresh
  · rw [ht, hr]; exact h.taskRule
  · rw [hr, ht]; exact h.ruleTask
  · rw [hr]; exact h.rule
  · rw [ht]; exact h.task
  · rw [hr, hk]; exact h.keys

theorem Linked.modifyRule (h : Linked e) (hp : (f (e.ruleInfos k)).isInProgress = (e.ruleInfos k).isInProgress)
    (ht : (f (e.ruleInfos k)).pendingTaskInfo = (e.ruleInfos k).pendingTaskInfo) (hw : (f (e.ruleInfos k)).Wf k) :
    Linked (e.modifyRule k f) := by
  have hprog : ∀ k', ((e.modifyRule k f).ruleInfos k').isInProgress = (e.ruleInfos k').isInProgress := by
    intro k'
    by_cases hk : k' = k
    · subst hk; rw [modifyRule_ruleInfos_self, hp]
    · rw [modifyRule_ruleInfos_ne e f hk]
  have htask : ∀ k', ((e.modifyRule k f).ruleInfos k').pendingTaskInfo
      = (e.ruleInfos k').pendingTaskInfo := by
    intro k'
    by_cases hk : k' = k
    · subst hk; rw [modifyRule_ruleInfos_self, ht]
    · rw [modifyRule_ruleInfos_ne e f hk]
  refine ⟨h.fresh, ?_, ?_, ?_, h.task, ?_⟩
  · intro t ti hti
    rw [hprog, htask]
    exact h.taskRule t ti hti
  · intro k' hk'
    rw [htask]
    rw [hprog] at hk'
    exact h.ruleTask k' hk'
  · intro k'
    by_cases hk : k' = k
    · subst hk; rw [modifyRule_ruleInfos_self]; exact hw
    · rw [modifyRule_ruleInfos_ne e f hk]; exact h.rule k'
  · intro k' hk'
    have hmem : k' ≠ k ∧ k' ∉ e.ruleKeys := by
      simpa [Engine.modifyRule, not_or] using hk'
    rw [modifyRule_ruleInfos_ne e f hmem.1]
    exact h.keys k' hmem.2

theorem modifyTask_taskInfos {f : TaskInfo T → TaskInfo T} {t' : TaskID} {ti' : TaskInfo T}
    (h : (e.modifyTask t f).taskInfos t' = some ti') :
    ∃ ti, e.taskInfos t' = some ti ∧ ((t' = t ∧ ti' = f ti) ∨ (t' ≠ t ∧ ti' = ti)) := by
  by_cases ht : t' = t
  · subst ht
    simp only [modifyTask, Function.update_self, Option.map_eq_some_iff] at h
    obtain ⟨ti, hti, rfl⟩ := h
    exact ⟨ti, hti, .inl ⟨rfl, rfl⟩⟩
  · simp only [modifyTask, Function.update_of_ne ht] at h
    exact ⟨ti', h, .inr ⟨ht, rfl⟩⟩

theorem Linked.modifyTask (h : Linked e) {f : TaskInfo T → TaskInfo T}
    (hk : ∀ ti, e.taskInfos t = some ti → (f ti).forRuleInfo = ti.forRuleInfo)
    (hw : ∀ ti, e.taskInfos t = some ti → ti.Wf → (f ti).Wf) : Linked (e.modifyTask t f) := by
  refine ⟨?_, ?_, ?_, h.rule, ?_, h.keys⟩
  · intro t' ht'
    have hnone := h.fresh t' ht'
    by_cases heq : t' = t
    · subst heq; simp [Engine.modifyTask, hnone]
    · simp [Engine.modifyTask, Function.update_of_ne heq, hnone]
  · intro t' ti' hti'
    obtain ⟨ti, hti, ⟨rfl, rfl⟩ | ⟨-, rfl⟩⟩ := modifyTask_taskInfos hti'
    · rw [hk ti hti]; exact h.taskRule t' ti hti
    · exact h.taskRule t' _ hti
  · intro k hprog
    obtain ⟨t', ti, hpend, hti, hfor⟩ := h.ruleTask k hprog
    by_cases heq : t' = t
    · subst heq
      exact ⟨t', f ti, hpend, by simp [Engine.modifyTask, hti], by rw [hk ti hti, hfor]⟩
    · exact ⟨t', ti, hpend, by simp [Engine.modifyTask, Function.update_of_ne heq, hti], hfor⟩
  · intro t' ti' hti'
    obtain ⟨ti, hti, ⟨rfl, rfl⟩ | ⟨-, rfl⟩⟩ := modifyTask_taskInfos hti'
    · exact hw ti hti (h.task t' ti hti)
    · exact h.task t' _ hti

/-! ## The larger writes -/

theorem Linked.lt_nextTask (h : Linked e) (ht : e.taskInfos t = some ti) : t < e.nextTask := by
  by_contra hlt
  rw [h.fresh t (Nat.le_of_not_lt hlt)] at ht
  exact absurd ht (by simp)

/-- A rule has at most one task. -/
theorem Linked.task_unique (h : Linked e) {t' : TaskID} {ti' : TaskInfo T} (ht : e.taskInfos t = some ti)
    (ht' : e.taskInfos t' = some ti') (hk : ti.forRuleInfo = ti'.forRuleInfo) : t = t' := by
  have h₁ := (h.taskRule t ti ht).2
  rw [hk, (h.taskRule t' ti' ht').2] at h₁
  exact (Option.some.inj h₁).symm

/-- The task of a rule in progress. -/
theorem Linked.pendingTask (h : Linked e) (hk : (e.ruleInfos k).isInProgress = true)
    (ht : (e.ruleInfos k).pendingTaskInfo = some t) :
    ∃ ti, e.taskInfos t = some ti ∧ ti.forRuleInfo = k := by
  obtain ⟨t', ti, hpend, hti, hfor⟩ := h.ruleTask k hk
  rw [ht] at hpend
  cases hpend
  exact ⟨ti, hti, hfor⟩

theorem not_isInProgress_of_state (h₁ : r.state ≠ .inProgressWaiting) (h₂ : r.state ≠ .inProgressComputing) :
    r.isInProgress = false := by
  simp [isInProgress, isInProgressWaiting, isInProgressComputing, h₁, h₂]

theorem Linked.registerTask (h : Linked e) (hk : (e.ruleInfos k).state = .needsToRun) :
    Linked (e.registerTask c w k) := by
  have hnp : (e.ruleInfos k).isInProgress = false :=
    not_isInProgress_of_state (by simp [hk]) (by simp [hk])
  have hne : ∀ t ti, e.taskInfos t = some ti → ti.forRuleInfo ≠ k := by
    rintro t ti hti rfl
    rw [(h.taskRule t ti hti).1] at hnp
    exact absurd hnp (by simp)
  have htask : ∀ t ti, (e.registerTask c w k).taskInfos t = some ti →
      (t = e.nextTask ∧ ti = { task := c.createTask w k, forRuleInfo := k }) ∨
        e.taskInfos t = some ti := by
    intro t ti hti
    by_cases ht : t = e.nextTask
    · subst ht
      refine .inl ⟨rfl, ?_⟩
      simpa [Engine.registerTask, Engine.modifyRule, emit] using hti.symm
    · exact .inr (by simpa [Engine.registerTask, Engine.modifyRule, emit, ht] using hti)
  refine ⟨?_, ?_, ?_, ?_, ?_, ?_⟩
  · intro t ht
    have hlt : e.nextTask < t := ht
    simpa [Engine.registerTask, Engine.modifyRule, emit, Nat.ne_of_gt hlt] using
      h.fresh t (Nat.le_of_lt hlt)
  · intro t ti hti
    rcases htask t ti hti with ⟨rfl, rfl⟩ | hold
    · simp [Engine.registerTask, Engine.modifyRule, isInProgress, isInProgressWaiting]
    · simpa [Engine.registerTask, Engine.modifyRule, emit, hne t ti hold] using h.taskRule t ti hold
  · intro k' hk'
    by_cases heq : k' = k
    · subst heq
      exact ⟨e.nextTask, { task := c.createTask w k', forRuleInfo := k' },
        by simp [Engine.registerTask, Engine.modifyRule],
        by simp [Engine.registerTask, Engine.modifyRule, emit], rfl⟩
    · obtain ⟨t, ti, hpend, hti, hfor⟩ := h.ruleTask k' (by
        simpa [Engine.registerTask, Engine.modifyRule, emit, heq] using hk')
      have hlt : t ≠ e.nextTask := Nat.ne_of_lt (h.lt_nextTask hti)
      exact ⟨t, ti, by simpa [Engine.registerTask, Engine.modifyRule, emit, heq] using hpend,
        by simpa [Engine.registerTask, Engine.modifyRule, emit, hlt] using hti, hfor⟩
  · intro k'
    by_cases heq : k' = k
    · subst heq
      refine (h.rule k').of_not_scanning (by simp [isScanning, hk]) ?_
      simp [Engine.registerTask, Engine.modifyRule, emit]
    · simpa [Engine.registerTask, Engine.modifyRule, emit, heq] using h.rule k'
  · intro t ti hti
    rcases htask t ti hti with ⟨rfl, rfl⟩ | hold
    · exact ⟨by simp, by simp⟩
    · exact h.task t ti hold
  · intro k' hk'
    have hmem : k' ≠ k ∧ k' ∉ e.ruleKeys := by
      simpa [Engine.registerTask, Engine.modifyRule, emit, not_or] using hk'
    simpa [Engine.registerTask, Engine.modifyRule, emit, hmem.1] using h.keys k' hmem.2

/-- The rule of a finished task is complete and the task is gone. -/
theorem Linked.finishTask (h : Linked e) (rest : List TaskID) (db : Option BuildDB) (ht : e.taskInfos t = some ti) :
    Linked ({ { e with finishedTaskInfos := rest }.completeRule ti with db := db }.releaseTask t ti) := by
  obtain ⟨hprog, hpend⟩ := h.taskRule t ti ht
  have hns : (e.ruleInfos ti.forRuleInfo).isScanning = false := by
    simp only [isInProgress, isInProgressWaiting, isInProgressComputing,
      Bool.or_eq_true, decide_eq_true_eq] at hprog
    rcases hprog with hs | hs <;> simp [isScanning, hs]
  have hold : ∀ t' ti', Function.update e.taskInfos t none t' = some ti' →
      e.taskInfos t' = some ti' ∧ ti'.forRuleInfo ≠ ti.forRuleInfo := by
    intro t' ti' hti'
    have hne : t' ≠ t := by rintro rfl; simp at hti'
    rw [Function.update_of_ne hne] at hti'
    exact ⟨hti', fun hk => hne (h.task_unique hti' ht hk)⟩
  refine ⟨?_, ?_, ?_, ?_, ?_, ?_⟩
  · intro t' ht'
    have hne : t' ≠ t := Nat.ne_of_gt (Nat.lt_of_lt_of_le (h.lt_nextTask ht) ht')
    simpa [releaseTask, completeRule, Engine.modifyRule, emit, hne] using h.fresh t' ht'
  · intro t' ti' hti'
    obtain ⟨h₁, h₂⟩ := hold t' ti' hti'
    simpa [releaseTask, completeRule, Engine.modifyRule, emit, h₂] using h.taskRule t' ti' h₁
  · intro k hk
    have hne : k ≠ ti.forRuleInfo := by
      rintro rfl
      simp [releaseTask, completeRule, Engine.modifyRule, emit, setComplete,
        isInProgress, isInProgressWaiting, isInProgressComputing] at hk
    obtain ⟨t', ti', hpend', hti', hfor⟩ := h.ruleTask k (by
      simpa [releaseTask, completeRule, Engine.modifyRule, emit, hne] using hk)
    have hne' : t' ≠ t := by
      rintro rfl
      rw [ht] at hti'
      cases hti'
      exact hne hfor.symm
    exact ⟨t', ti', by simpa [releaseTask, completeRule, Engine.modifyRule, emit, hne] using hpend',
      by simpa [releaseTask, completeRule, Engine.modifyRule, emit, hne'] using hti', hfor⟩
  · intro k
    by_cases hk : k = ti.forRuleInfo
    · subst hk
      refine (h.rule _).of_not_scanning hns ?_
      simp [releaseTask, completeRule, Engine.modifyRule, emit, setComplete]
    · simpa [releaseTask, completeRule, Engine.modifyRule, emit, hk] using h.rule k
  · intro t' ti' hti'
    exact h.task t' ti' (hold t' ti' hti').1
  · intro k hk
    have hmem : k ≠ ti.forRuleInfo ∧ k ∉ e.ruleKeys := by
      simpa [releaseTask, completeRule, Engine.modifyRule, emit, not_or] using hk
    simpa [releaseTask, completeRule, Engine.modifyRule, emit, hmem.1] using h.keys k hmem.2

theorem isInProgress_of_untouched {epoch : Epoch} (h : r.Untouched epoch) :
    r.isInProgress = false := by
  obtain ⟨hs, -⟩ := h
  unfold isScanned at hs
  cases hst : r.state <;>
    simp_all [isInProgress, isInProgressWaiting, isInProgressComputing,
      StateKind.pastScanning]

theorem isInProgress_of_scanning (h : r.isScanning = true) : r.isInProgress = false := by
  simp only [isScanning, decide_eq_true_eq] at h
  exact not_isInProgress_of_state (by simp [h]) (by simp [h])

/-- Leaving the scanning state and waking what waited for it. -/
theorem Linked.wakeScanRecord (h : Linked e) (record : RuleScanRecord) (newState : StateKind)
    (hk : (e.ruleInfos k).isScanning = true) (h₁ : newState ≠ .inProgressWaiting)
    (h₂ : newState ≠ .inProgressComputing) :
    Linked (e.wakeScanRecord k record newState) := by
  refine Linked.congr (e := e.modifyRule k (fun r =>
    { r with pendingScanRecord := none, state := newState })) ?_ rfl rfl rfl rfl
  refine h.modifyRule ?_ rfl (.of_none rfl)
  rw [isInProgress_of_scanning hk]
  exact not_isInProgress_of_state h₁ h₂

theorem taskIsComplete_eq (value : ValueType) (forceChange : Bool) (ht : e.taskInfos t = some ti)
    (hc : (e.ruleInfos ti.forRuleInfo).isInProgressComputing = true) :
    e.taskIsComplete c t value forceChange =
      { e.modifyRule ti.forRuleInfo (fun r =>
          { r with result :=
              storeValue (c.signature ti.forRuleInfo) e.currentEpoch value forceChange r.result }) with
        finishedTaskInfos := t :: e.finishedTaskInfos } := by
  simp only [taskIsComplete, ht, hc, if_true]
  rfl

theorem taskDiscoveredDependency_eq (key : KeyType) (ht : e.taskInfos t = some ti)
    (hc : (e.ruleInfos ti.forRuleInfo).isInProgressComputing = true) :
    e.taskDiscoveredDependency t key =
      e.modifyTask t (fun ti =>
        { ti with discoveredDependencies := ti.discoveredDependencies ++ [{ keyID := key }] }) := by
  simp only [taskDiscoveredDependency, ht, hc, if_true]

theorem forceBuild_eq {record : RuleScanRecord} (hn : e.ruleInfosToScan = [])
    (hr : (e.ruleInfos k).pendingScanRecord = some record) :
    e.forceBuild k =
      ((e.wakeScanRecord k record .needsToRun).emit
        (.determinedRuleNeedsToRun k .forced none)).modifyRule k (fun r => { r with wasForced := true }) := by
  have he : { e with ruleInfosToScan := ([] : List RuleScanRequest) } = e := by rw [← hn]
  simp only [forceBuild, hn, reverse_nil, eraseP_nil, he, finishScanRequest, hr]

/-- Only the result of a rule changes. -/
theorem Linked.modifyResult (h : Linked e) (k : KeyType) (hs : ∀ r, (f r).state = r.state)
    (hr : ∀ r, (f r).pendingScanRecord = r.pendingScanRecord) (ht : ∀ r, (f r).pendingTaskInfo = r.pendingTaskInfo) :
    Linked (e.modifyRule k f) := by
  refine h.modifyRule ?_ (ht _) ((h.rule k).congr (hr _) (hs _))
  simp only [isInProgress, isInProgressWaiting, isInProgressComputing, hs]

/-- The state of a rule changes between states that are neither scanning nor in progress. -/
theorem Linked.modifyState (h : Linked e) (hp : (e.ruleInfos k).isInProgress = false)
    (hs : (e.ruleInfos k).isScanning = false) (h₁ : (f (e.ruleInfos k)).state ≠ .inProgressWaiting)
    (h₂ : (f (e.ruleInfos k)).state ≠ .inProgressComputing)
    (hr : (f (e.ruleInfos k)).pendingScanRecord = (e.ruleInfos k).pendingScanRecord)
    (ht : (f (e.ruleInfos k)).pendingTaskInfo = (e.ruleInfos k).pendingTaskInfo) :
    Linked (e.modifyRule k f) :=
  h.modifyRule ((not_isInProgress_of_state h₁ h₂).trans hp.symm) ht ((h.rule k).of_not_scanning hs hr)

/-- Only fields of a task change that link it to nothing. -/
theorem Linked.modifyTaskFields (h : Linked e) (t : TaskID) {f : TaskInfo T → TaskInfo T}
    (hk : ∀ ti, (f ti).forRuleInfo = ti.forRuleInfo) (hr : ∀ ti, (f ti).requestedBy = ti.requestedBy)
    (hd : ∀ ti, (f ti).deferredScanRequests = ti.deferredScanRequests) : Linked (e.modifyTask t f) := by
  refine h.modifyTask (fun ti _ => hk ti) (fun ti _ hw => ⟨?_, ?_⟩)
  · rw [hr, hk]; exact hw.requestedBy
  · rw [hd, hk]; exact hw.deferred

theorem Linked.decrementTaskWaitCount (h : Linked e) (t : TaskID) :
    Linked (e.decrementTaskWaitCount t) := by
  have h' := h.modifyTaskFields t (f := fun ti => { ti with waitCount := ti.waitCount - 1 })
    (fun _ => rfl) (fun _ => rfl) (fun _ => rfl)
  unfold Engine.decrementTaskWaitCount scheduleIfReady
  split
  · exact h'.congr rfl rfl rfl rfl
  · split_ifs
    · exact h'.congr rfl rfl rfl rfl
    · exact h'

theorem not_isScanning_of_isInProgress (h : r.isInProgress = true) :
    r.isScanning = false := by
  simp only [isInProgress, isInProgressWaiting, isInProgressComputing,
    Bool.or_eq_true, decide_eq_true_eq] at h
  rcases h with hs | hs <;> simp [isScanning, hs]

/-- **Every elementary move keeps the tables linked.** -/
theorem Micro.linked {h h' : Held} (hm : Micro c w (e, h) (e', h')) (hl : Linked e) :
    Linked e' := by
  cases hm with
  | report event _ | cancel | callError t call _ | scheduleReady t ti _ _ _ | popScan request rest _
  | popInput request rest _ | popFinished request rest t _ _ => exact hl.congr rfl rfl rfl rfl
  | cleanRule k hu => exact hl.modifyResult k (fun _ => rfl) (fun _ => rfl) (fun _ => rfl)
  | scanNeedsToRun k hu _ | scanUpToDate k hu _ _ =>
    exact hl.modifyState (isInProgress_of_untouched hu) hu.2 (by simp) (by simp) rfl rfl
  | scanScheduled k hu _ _ _ =>
    refine Linked.congr (hl.modifyRule (k := k) (f := fun r =>
      { r with state := .isScanning, pendingScanRecord := some {} }) ?_ rfl ?_) rfl rfl rfl rfl
    · exact (not_isInProgress_of_state (by simp) (by simp)).trans (isInProgress_of_untouched hu).symm
    · exact ⟨fun _ => by simp [isScanning], by rintro record ⟨⟩; simp,
        by rintro record ⟨⟩; simp⟩
  | markUpToDate k hd =>
    exact hl.modifyState (not_isInProgress_of_state (by simp [hd]) (by simp [hd]))
      (by simp [isScanning, hd]) (by simp [setComplete])
      (by simp [setComplete]) rfl rfl
  | registerTask k hk _ => exact hl.registerTask hk
  | start item t ti _ _ _ _ => exact hl.modifyTaskFields t (fun _ => rfl) (fun _ => rfl) (fun _ => rfl)
  | providePriorValue t ti value _ _ | provideValue request t ti _ _ _ =>
    exact hl.modifyTaskFields t (fun _ => rfl) (fun _ => rfl) (fun _ => rfl)
  | callRequest t ti call request _ _ _ =>
    exact (hl.modifyTaskFields t (f := fun ti => { ti with waitCount := ti.waitCount + 1 })
      (fun _ => rfl) (fun _ => rfl) (fun _ => rfl)).congr rfl rfl rfl rfl
  | scheduleWaiting t ti _ _ _ | dropScan request _ | lookupScanInput request d _ _ _
  | advanceScan request input _ _ _ _ _ | dropDummy request _ _ => exact hl
  | deferOnScan request input record _ hin hs hrec =>
    refine hl.modifyRule ?_ ?_ ⟨fun _ => hs, ?_, ?_⟩
    · rfl
    · rfl
    · rintro record' ⟨⟩ q hq
      exact (hl.rule input).paused record hrec q hq
    · rintro record' ⟨⟩ q hq
      rcases mem_append.mp hq with hq | hq
      · exact (hl.rule input).deferred record hrec q hq
      · rw [mem_singleton.mp hq, hin]
  | deferOnTask request input t _ hin hp ht =>
    obtain ⟨ti, hti, hfor⟩ := hl.pendingTask hp ht
    refine hl.modifyTask (fun _ _ => rfl) (fun ti' hti' hw => ⟨hw.1, fun q hq => ?_⟩)
    obtain rfl : ti = ti' := Option.some.inj (hti.symm.trans hti')
    rcases mem_append.mp hq with hq | hq
    · exact hw.2 q hq
    · rw [mem_singleton.mp hq, hin, hfor]
  | finishScanRun request input record hk _ _ _ _ | finishScanUpToDate request input record hk _ _ _ _ _ =>
    exact hl.wakeScanRecord record _ hk (by simp) (by simp)
  | pauseInput request record hs hrec =>
    refine hl.modifyRule ?_ ?_ ⟨fun _ => hs, ?_, ?_⟩
    · rfl
    · rfl
    · rintro record' ⟨⟩ q hq
      rcases mem_append.mp hq with hq | hq
      · exact (hl.rule _).paused record hrec q hq
      · rw [mem_singleton.mp hq]
    · rintro record' ⟨⟩ q hq
      exact (hl.rule _).deferred record hrec q hq
  | recordAvailable request t ti _ _ _ =>
    refine Linked.congr (e := e.recordDependency ti.forRuleInfo request) ?_ rfl rfl rfl rfl
    exact hl.modifyResult _ (fun _ => rfl) (fun _ => rfl) (fun _ => rfl)
  | recordPending request t ti t' _ _ hp ht' =>
    obtain ⟨ti', hti', hfor⟩ := hl.pendingTask hp ht'
    have hl' : Linked (e.recordDependency ti.forRuleInfo request) :=
      hl.modifyResult _ (fun _ => rfl) (fun _ => rfl) (fun _ => rfl)
    refine hl'.modifyTask (fun _ _ => rfl) (fun ti'' hti'' hw => ⟨fun q hq => ?_, hw.2⟩)
    obtain rfl : ti' = ti'' := Option.some.inj (hti'.symm.trans hti'')
    rcases mem_append.mp hq with hq | hq
    · exact hw.1 q hq
    · rw [mem_singleton.mp hq, hfor]
  | decrement request t ti _ _ _ => exact hl.decrementTaskWaitCount t
  | popReady t rest ti _ ht =>
    obtain ⟨hprog, -⟩ := hl.taskRule t ti ht
    have hl' : Linked (e.modifyRule ti.forRuleInfo (fun r => { r with state := .inProgressComputing })) := by
      refine hl.modifyRule ?_ rfl ((hl.rule _).of_not_scanning (not_isScanning_of_isInProgress hprog) rfl)
      rw [hprog]
      simp [isInProgress, isInProgressComputing]
    exact (hl'.modifyTaskFields t (f := fun ti => { ti with task := c.inputsAvailable w ti.task })
      (fun _ => rfl) (fun _ => rfl) (fun _ => rfl)).congr rfl rfl rfl rfl
  | finishTask t rest ti db _ ht _ => exact hl.finishTask rest db ht
  | forceBuild k record hn _ hk hr =>
    rw [forceBuild_eq hn.1 hr]
    have hl₁ : Linked ((e.wakeScanRecord k record .needsToRun).emit
        (.determinedRuleNeedsToRun k .forced none)) :=
      (hl.wakeScanRecord record .needsToRun hk (by simp) (by simp)).congr rfl rfl rfl rfl
    exact hl₁.modifyResult k (fun _ => rfl) (fun _ => rfl) (fun _ => rfl)
  | supplyPriorValue t ti request _ ht hmem _ =>
    have hl₁ : Linked { e with finishedInputRequests :=
        { request with forcePriorValue := true } :: e.finishedInputRequests } := hl.congr rfl rfl rfl rfl
    exact hl₁.modifyTask (t := t) (f := fun ti => { ti with requestedBy := ti.requestedBy.erase request })
      (fun _ _ => rfl) (fun ti' _ hw => ⟨fun q hq => hw.1 q (mem_of_mem_erase hq), hw.2⟩)

theorem ThreadCall.linked (hc : ThreadCall c e e') (hl : Linked e) : Linked e' := by
  cases hc with
  | taskIsComplete t ti value forceChange ht hc _ =>
    rw [taskIsComplete_eq value forceChange ht hc]
    have hl₁ : Linked (e.modifyRule ti.forRuleInfo (fun r =>
        { r with
          result := storeValue (c.signature ti.forRuleInfo) e.currentEpoch value forceChange r.result })) :=
      hl.modifyResult _ (fun _ => rfl) (fun _ => rfl) (fun _ => rfl)
    exact hl₁.congr rfl rfl rfl rfl
  | discoveredDependency t ti key ht hc _ =>
    rw [taskDiscoveredDependency_eq key ht hc]
    exact hl.modifyTaskFields t (fun _ => rfl) (fun _ => rfl) (fun _ => rfl)

end Builra
