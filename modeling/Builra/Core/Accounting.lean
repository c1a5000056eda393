import Builra.Core.Run

namespace Builra

open List RuleInfo Finset Event

/-!
# `Core.Accounting` — no request is lost, and none is delivered twice

The accounting of `executeTasks` in every reachable state: `waitCount` is the number of requests in the four
containers, the ready queue holds exactly the waiting tasks that wait for nothing, and a task is told that
its inputs are available at most once, after each of its requests was delivered once, from a rule that is
complete in this epoch.
-/

variable {T W : Type} {c : Client T W} {w : W}

open Engine

variable (e : Engine T)

/-- The number of requests of task `t` in the `pausedInputRequests` of scanning rules. -/
def Engine.numPausedNaming (t : TaskID) : Nat :=
  ∑ k ∈ e.ruleKeys.toFinset with (e.ruleInfos k).isScanning = true,
    ((e.ruleInfos k).pendingScanRecord.elim [] (fun record => record.pausedInputRequests)).countP
      (fun r => r.names t)

/-- The number of requests of task `t` in the `requestedBy` lists of tasks. -/
def Engine.numRequestedNaming (t : TaskID) : Nat :=
  ∑ t' ∈ Finset.range e.nextTask,
    ((e.taskInfos t').elim [] (fun ti => ti.requestedBy)).countP (fun r => r.names t)

/-- The number of requests of task `t` in the four containers taken together. -/
def Engine.numRequestsNaming (t : TaskID) : Nat :=
  e.inputRequests.countP (fun r => r.names t) + e.numPausedNaming t + e.numRequestedNaming t +
    e.finishedInputRequests.countP (fun r => r.names t)

/-- What was handed over in this build, and what is about to be, comes from complete rules. -/
structure Delivered (e : Engine T) : Prop where
  finished : ∀ r ∈ e.finishedInputRequests,
    r.forcePriorValue = true ∨ (e.ruleInfos r.inputRuleInfo).Done e.currentEpoch
  delivered : ∀ r value, Event.completedTaskInputRequest r value ∈ e.events →
    r.forcePriorValue = true ∨ ((e.ruleInfos r.inputRuleInfo).Done e.currentEpoch ∧
      (e.ruleInfos r.inputRuleInfo).result.value = value)

/-- **The accounts of `executeTasks`**, between two queue operations. -/
structure Accounted (e : Engine T) : Prop where
  waitCount : ∀ t ti, e.taskInfos t = some ti → ti.waitCount = e.numRequestsNaming t
  ready : ∀ t, t ∈ e.readyTaskInfos ↔ ∃ ti, e.taskInfos t = some ti ∧ ti.waitCount = 0 ∧
    (e.ruleInfos ti.forRuleInfo).isInProgressWaiting = true
  /-- `inputsAvailable` is called at most once. -/
  once : ∀ t, e.events.countP (Event.launches t) ≤ 1
  /-- Before the call every request was delivered as often as it was made, and none is made after it. -/
  settled : ∀ t later earlier, e.events = later ++ .inputsAvailable t :: earlier →
    (∀ ev ∈ later, ev.requestOf t = false) ∧
    ∀ r, r.taskInfo = some t → r.forcePriorValue = false →
      earlier.countP (Event.requests r) = earlier.countP (Event.delivers r)
  /-- Deliveries that are not forced come from a rule that is complete in this epoch. -/
  delivered : ∀ r value, Event.completedTaskInputRequest r value ∈ e.events →
    r.forcePriorValue = true ∨ ((e.ruleInfos r.inputRuleInfo).isComplete e.currentEpoch = true ∧
      (e.ruleInfos r.inputRuleInfo).result.value = value)

/-! ## Deliveries -/

variable {e e' : Engine T}

theorem Delivered.of_frame (hd : Delivered e) (hf : ∀ k, (e.ruleInfos k).Done e.currentEpoch →
      e'.ruleInfos k = e.ruleInfos k ∧ (e'.ruleInfos k).Done e'.currentEpoch)
    (hfin : ∀ r ∈ e'.finishedInputRequests, r ∈ e.finishedInputRequests ∨
      r.forcePriorValue = true ∨ (e'.ruleInfos r.inputRuleInfo).Done e'.currentEpoch)
    (hev : ∀ r value, Event.completedTaskInputRequest r value ∈ e'.events →
      Event.completedTaskInputRequest r value ∈ e.events ∨
        (r ∈ e.finishedInputRequests ∧ (e.ruleInfos r.inputRuleInfo).result.value = value)) :
    Delivered e' := by
  refine ⟨fun r hr => ?_, fun r value hr => ?_⟩
  · rcases hfin r hr with hold | hnew
    · exact (hd.finished r hold).imp id (fun h => (hf _ h).2)
    · exact hnew
  · rcases hev r value hr with hold | ⟨hmem, hval⟩
    · refine (hd.delivered r value hold).imp id (fun h => ?_)
      obtain ⟨heq, hdone⟩ := hf _ h.1
      exact ⟨hdone, by rw [heq]; exact h.2⟩
    · refine (hd.finished r hmem).imp id (fun h => ?_)
      obtain ⟨heq, hdone⟩ := hf _ h
      exact ⟨hdone, by rw [heq]; exact hval⟩

theorem Micro.delivered {h h' : Held} (hm : Micro c w (e, h) (e', h')) (hl : Linked e) (hd : Delivered e) :
    Delivered e' := by
  have hf := fun k (hk : (e.ruleInfos k).Done e.currentEpoch) => (hm.ruleFrame hl).done_eq hk
  cases hm with
  | report event hr =>
    refine hd.of_frame hf (fun r hr => .inl hr) (fun r value hmem => .inl ?_)
    rcases mem_cons.mp hmem with rfl | hmem
    · simp [isReport] at hr
    · exact hmem
  | registerTask k _ _ =>
    refine hd.of_frame hf (fun r hr => .inl hr) (fun r value hmem => .inl ?_)
    simpa [Engine.registerTask, modifyRule, emit] using hmem
  | callRequest t ti call request _ _ _ =>
    refine hd.of_frame hf (fun r hr => .inl hr) (fun r value hmem => .inl ?_)
    simpa [enqueueRequest, modifyTask, emit] using hmem
  | callError t call _ =>
    refine hd.of_frame hf (fun r hr => .inl hr) (fun r value hmem => .inl ?_)
    simpa [Engine.error] using hmem
  | recordAvailable request t ti _ _ hdone =>
    refine hd.of_frame hf (fun r hr => ?_) (fun r value hmem => .inl hmem)
    rcases mem_cons.mp hr with rfl | hr
    · exact .inr (.inr (hf _ hdone).2)
    · exact .inl hr
  | popFinished request rest t hq _ =>
    refine hd.of_frame hf (fun r hr => .inl ?_) (fun r value hmem => ?_)
    · rw [hq]; exact mem_cons_of_mem _ hr
    · rcases mem_cons.mp hmem with heq | hmem
      · simp only [completedTaskInputRequest.injEq] at heq
        obtain ⟨rfl, rfl⟩ := heq
        exact .inr ⟨by rw [hq]; simp, rfl⟩
      · exact .inl hmem
  | decrement request t ti _ _ _ =>
    obtain ⟨ready, trapped, heq⟩ := decrement_frame e t
    rw [heq] at hf ⊢
    exact hd.of_frame hf (fun r hr => .inl hr) (fun r value hmem => .inl hmem)
  | popReady t rest ti _ _ =>
    refine hd.of_frame hf (fun r hr => .inl hr) (fun r value hmem => .inl ?_)
    simpa [startComputing, modifyRule, modifyTask, emit] using hmem
  | finishTask t rest ti db _ ht _ =>
    refine hd.of_frame hf (fun r hr => ?_) (fun r value hmem => .inl ?_)
    · rcases mem_append.mp hr with hr | hr
      · refine .inr (.inr ?_)
        rw [(hl.task t ti ht).requestedBy r (by simpa using hr)]
        simp [RuleInfo.Done, isComplete, releaseTask, completeRule, modifyRule, emit,
          setComplete]
      · exact .inl hr
    · simpa [releaseTask, completeRule, modifyRule, emit] using hmem
  | forceBuild k record hn _ _ hr =>
    rw [forceBuild_eq hn.1 hr] at hf ⊢
    refine hd.of_frame hf (fun r hr => .inl hr) (fun r value hmem => .inl ?_)
    simpa [wakeScanRecord, modifyRule, emit] using hmem
  | supplyPriorValue t ti request _ _ _ _ =>
    refine hd.of_frame hf (fun r hr => ?_) (fun r value hmem => .inl hmem)
    rcases mem_cons.mp hr with rfl | hr
    · exact .inr (.inl rfl)
    · exact .inl hr
  | _ => exact hd.of_frame hf (fun r hr => .inl hr) (fun r value hmem => .inl hmem)

theorem ThreadCall.delivered (hc : ThreadCall c e e') (hd : Delivered e) :
    Delivered e' := by
  have hf := fun k (hk : (e.ruleInfos k).Done e.currentEpoch) => hc.done_eq hk
  cases hc with
  | taskIsComplete t ti value forceChange ht hcomp _ =>
    rw [taskIsComplete_eq value forceChange ht hcomp] at hf ⊢
    exact hd.of_frame hf (fun r hr => .inl hr) (fun r value hmem => .inl hmem)
  | discoveredDependency t ti key ht hcomp _ =>
    rw [taskDiscoveredDependency_eq key ht hcomp] at hf ⊢
    exact hd.of_frame hf (fun r hr => .inl hr) (fun r value hmem => .inl hmem)

/-! ## The accounts balance -/

theorem numNaming_sum {ι : Type} (t : TaskID) (s : Finset ι) (f : ι → Multiset TaskInputRequest) :
    numNaming t (∑ i ∈ s, f i) = ∑ i ∈ s, numNaming t (f i) :=
  map_sum (Multiset.countPAddMonoidHom (fun r : TaskInputRequest => r.names t = true)) f s

theorem numNaming_coe (t : TaskID) (l : List TaskInputRequest) :
    numNaming t (l : Multiset TaskInputRequest) = l.countP (fun r => r.names t) := by
  simp [numNaming]

theorem numNaming_queued (hl : Linked e) (t : TaskID) :
    numNaming t (e.board {}).queued = e.numRequestsNaming t := by
  have hp : numNaming t e.paused = e.numPausedNaming t := by
    unfold paused numPausedNaming
    rw [numNaming_sum, sum_filter]
    refine sum_congr rfl (fun k _ => ?_)
    cases hrec : (e.ruleInfos k).pendingScanRecord with
    | none => simp [pausedRequests_of_none hrec, numNaming]
    | some record =>
      rw [pausedRequests_of_record hrec, numNaming_coe,
        if_pos ((hl.rule k).scanning (by simp [hrec]))]
      rfl
  have hr : numNaming t e.requested = e.numRequestedNaming t := by
    unfold requested numRequestedNaming
    rw [numNaming_sum]
    refine sum_congr rfl (fun t' _ => ?_)
    cases e.taskInfos t' with
    | none => rfl
    | some ti => exact numNaming_coe t ti.requestedBy
  have hzero : numNaming t (0 : Multiset TaskInputRequest) = 0 := rfl
  simp only [board, Held.queued, numNaming_add, numNaming_coe, hp, hr, numRequestsNaming, hzero,
    Nat.add_zero]

/-- The accounts of the scheduler are the accounts of the engine. -/
theorem Sound.accounted (hs : Sound e {}) (hd : Delivered e) : Accounted e := by
  have hb := hs.board
  refine ⟨fun t ti ht => ?_, fun t => ?_, hb.launched_once, fun t later earlier heq => ?_, hd.delivered⟩
  · have hbal := hb.balance t
    rw [Board.waitCount_of_status (status_of_task ht), numNaming_queued hs.linked,
      Board.handingTo_of_none rfl] at hbal
    exact hbal
  · refine (hb.ready t).trans ⟨?_, ?_⟩
    · rintro ⟨hw, -⟩
      have hst : e.status t = some ⟨0, false⟩ := hw
      cases ht : e.taskInfos t with
      | none => simp [status, ht] at hst
      | some ti =>
        rw [status_of_task ht] at hst
        simp only [Option.some.injEq, TaskStatus.mk.injEq] at hst
        have hprog := (hs.linked.taskRule t ti ht).1
        rw [isInProgress, hst.2, Bool.or_false] at hprog
        exact ⟨ti, rfl, hst.1, hprog⟩
    · rintro ⟨ti, ht, hz, hw⟩
      refine ⟨?_, fun hst => absurd (show (none : Option TaskID) = some t from hst) (by simp)⟩
      rw [← hz]
      exact waiting_of_task ht (not_computing_of_waiting hw)
  · obtain ⟨hno, hall⟩ := hb.settled t later earlier heq
    exact ⟨fun ev hev => (hno ev hev).1, hall⟩

/-! ## While tasks are cancelled -/

/-- A write that moves no request, launches no task and touches no complete rule keeps the accounts. -/
theorem Accounted.of_frame (ha : Accounted e) (evs : List Event)
    (ht : ∀ t ti', e'.taskInfos t = some ti' → ∃ ti, e.taskInfos t = some ti ∧
      ti'.waitCount = ti.waitCount ∧ ti'.forRuleInfo = ti.forRuleInfo)
    (ht' : ∀ t ti, e.taskInfos t = some ti → (e'.taskInfos t).isSome = true)
    (hw : ∀ k, (e'.ruleInfos k).isInProgressWaiting = (e.ruleInfos k).isInProgressWaiting)
    (hn : ∀ t, e'.numRequestsNaming t = e.numRequestsNaming t) (hready : e'.readyTaskInfos = e.readyTaskInfos)
    (hdone : ∀ k, (e.ruleInfos k).Done e.currentEpoch →
      e'.ruleInfos k = e.ruleInfos k ∧ (e'.ruleInfos k).Done e'.currentEpoch) (hplain : ∀ ev ∈ evs, ev.isPlain = true)
    (hev : e'.events = evs ++ e.events) :
    Accounted e' := by
  have hlaunch : ∀ ev ∈ evs, ∀ t, ev.launches t = false ∧ ev.requestOf t = false := by
    intro ev hmem t
    have hp := hplain ev hmem
    cases ev <;> simp_all [isPlain, launches, requestOf]
  refine ⟨?_, ?_, ?_, ?_, ?_⟩
  · intro t ti' hti'
    obtain ⟨ti, hti, hwait, -⟩ := ht t ti' hti'
    rw [hn, hwait]
    exact ha.waitCount t ti hti
  · intro t
    rw [hready, ha.ready t]
    constructor
    · rintro ⟨ti, hti, hz, hwt⟩
      obtain ⟨ti', hti'⟩ := Option.isSome_iff_exists.mp (ht' t ti hti)
      obtain ⟨ti₀, hti₀, hwait, hfor⟩ := ht t ti' hti'
      cases hti.symm.trans hti₀
      exact ⟨ti', hti', hwait.trans hz, by rw [hfor, hw]; exact hwt⟩
    · rintro ⟨ti', hti', hz, hwt⟩
      obtain ⟨ti, hti, hwait, hfor⟩ := ht t ti' hti'
      exact ⟨ti, hti, hwait.symm.trans hz, by rw [← hw, ← hfor]; exact hwt⟩
  · intro t
    have hzero : evs.countP (launches t) = 0 :=
      countP_eq_zero.mpr (fun ev hmem => by simp [(hlaunch ev hmem t).1])
    rw [hev, countP_append, hzero, Nat.zero_add]
    exact ha.once t
  · intro t later earlier heq
    rw [hev] at heq
    rcases append_eq_append_iff.mp heq with ⟨mid, rfl, hrest⟩ | ⟨mid, rfl, hrest⟩
    · obtain ⟨hno, hall⟩ := ha.settled t mid earlier hrest
      refine ⟨fun ev hmem => ?_, hall⟩
      rcases mem_append.mp hmem with hmem | hmem
      · exact (hlaunch ev hmem t).2
      · exact hno ev hmem
    · cases mid with
      | nil =>
        obtain ⟨hno, hall⟩ := ha.settled t [] earlier hrest.symm
        exact ⟨fun ev hmem => (hlaunch ev (by simpa using hmem) t).2, hall⟩
      | cons ev mid =>
        obtain ⟨rfl, -⟩ := List.cons.inj hrest
        have := (hlaunch (.inputsAvailable t) (by simp) t).1
        simp [launches] at this
  · intro r value hmem
    have hold : completedTaskInputRequest r value ∈ e.events := by
      rw [hev] at hmem
      rcases mem_append.mp hmem with hmem | hmem
      · have := hplain _ hmem
        simp [isPlain] at this
      · exact hmem
    refine (ha.delivered r value hold).imp id (fun h => ?_)
    obtain ⟨heq, hd⟩ := hdone _ h.1
    exact ⟨hd, by rw [heq]; exact h.2⟩

/-- Writing to a rule that is not scanning, before and after. -/
theorem numPausedNaming_modifyRule {k : KeyType} {f : RuleInfo → RuleInfo} (h₁ : (e.ruleInfos k).isScanning = false)
    (h₂ : (f (e.ruleInfos k)).isScanning = false) (t : TaskID) :
    (e.modifyRule k f).numPausedNaming t = e.numPausedNaming t := by
  have hmem : ∀ k', k' ∈ (e.modifyRule k f).ruleKeys ∧
      ((e.modifyRule k f).ruleInfos k').isScanning = true ↔
      k' ∈ e.ruleKeys ∧ (e.ruleInfos k').isScanning = true := by
    intro k'
    by_cases hk : k' = k
    · subst hk
      rw [modifyRule_ruleInfos_self, h₁, h₂]
      simp
    · rw [modifyRule_ruleInfos_ne e f hk]
      simp [modifyRule, hk]
  refine sum_congr (ext (fun k' => ?_)) (fun k' hk' => ?_)
  · simpa only [Finset.mem_filter, mem_toFinset] using hmem k'
  · have hs : (e.ruleInfos k').isScanning = true := (Finset.mem_filter.mp hk').2
    have hne : k' ≠ k := by
      rintro rfl
      rw [h₁] at hs
      exact absurd hs (by simp)
    rw [modifyRule_ruleInfos_ne e f hne]

theorem ThreadCall.accounted (hc : ThreadCall c e e') (ha : Accounted e) :
    Accounted e' := by
  cases hc with
  | taskIsComplete t ti value forceChange ht hcomp _ =>
    rw [taskIsComplete_eq value forceChange ht hcomp]
    have hns : (e.ruleInfos ti.forRuleInfo).isScanning = false :=
      not_isScanning_of_isInProgress (by simp [isInProgress, hcomp])
    have hcs : (e.ruleInfos ti.forRuleInfo).state = .inProgressComputing := by
      simpa [isInProgressComputing] using hcomp
    refine ha.of_frame [] (fun t ti h => ⟨ti, h, rfl, rfl⟩) (fun t ti h => ?_) (fun k => ?_)
      (fun t' => ?_) rfl (fun k hd => ?_) (by simp) rfl
    · show (e.taskInfos t).isSome = true
      simp [h]
    · by_cases hk : k = ti.forRuleInfo
      · subst hk; simp [modifyRule, isInProgressWaiting]
      · simp [modifyRule, hk]
    · have hp := numPausedNaming_modifyRule (f := fun r =>
        { r with
          result := storeValue (c.signature ti.forRuleInfo) e.currentEpoch value forceChange r.result })
        hns hns t'
      exact congrArg (fun n => e.inputRequests.countP (fun r => r.names t') + n +
        e.numRequestedNaming t' + e.finishedInputRequests.countP (fun r => r.names t')) hp
    · have hk : k ≠ ti.forRuleInfo := by
        rintro rfl
        simp [RuleInfo.Done, isComplete, hcs] at hd
      simpa [modifyRule, hk] using hd
  | discoveredDependency t ti key ht hcomp _ =>
    rw [taskDiscoveredDependency_eq key ht hcomp]
    refine ha.of_frame [] (fun t' ti' h => ?_) (fun t' ti' h => ?_) (fun k => rfl)
      (fun t' => ?_) rfl (fun k hd => ⟨rfl, hd⟩) (by simp) rfl
    · obtain ⟨ti₀, hti₀, ⟨-, rfl⟩ | ⟨-, rfl⟩⟩ := modifyTask_taskInfos h
      · exact ⟨ti₀, hti₀, rfl, rfl⟩
      · exact ⟨_, hti₀, rfl, rfl⟩
    · by_cases heq : t' = t
      · subst heq; simp [modifyTask, h]
      · simp [modifyTask, heq, h]
    · refine congrArg (fun n => e.inputRequests.countP (fun r => r.names t') + e.numPausedNaming t' + n +
        e.finishedInputRequests.countP (fun r => r.names t')) ?_
      refine sum_congr rfl (fun t'' _ => ?_)
      by_cases heq : t'' = t
      · subst heq; simp [modifyTask, ht]
      · simp [modifyTask, heq]

/-- The accounts are in order when the database has refused a result. -/
theorem Sound.accounted_refuseResult (hs : Sound e {}) (hd : Delivered e) {t : TaskID} {rest : List TaskID}
    {ti : TaskInfo T} (message : String) (hfin : e.finishedTaskInfos = t :: rest) (ht : e.taskInfos t = some ti) :
    Accounted (e.refuseResult rest ti message) := by
  obtain ⟨hprog, -⟩ := hs.linked.taskRule t ti ht
  have hns := not_isScanning_of_isInProgress hprog
  have hcomp : (e.ruleInfos ti.forRuleInfo).isInProgressComputing = true := by
    obtain ⟨n, hn⟩ := hs.board.finished t (by
      show t ∈ e.finishedTaskInfos
      rw [hfin]; simp)
    have hst : e.status t = some ⟨n, true⟩ := hn
    rw [status_of_task ht] at hst
    simp only [Option.some.injEq, TaskStatus.mk.injEq] at hst
    exact hst.2
  have hcs : (e.ruleInfos ti.forRuleInfo).state = .inProgressComputing := by
    simpa [isInProgressComputing] using hcomp
  refine (hs.accounted hd).of_frame
    [.error message, .updateStatus ti.forRuleInfo .isComplete]
    (fun t ti h => ⟨ti, h, rfl, rfl⟩) (fun t ti h => by
      show (e.taskInfos t).isSome = true
      simp [h]) (fun k => ?_) (fun t' => ?_) rfl (fun k hdone => ?_) (by simp [isPlain]) rfl
  · by_cases hk : k = ti.forRuleInfo
    · subst hk
      simp [refuseResult, completeRule, modifyRule, emit, setComplete,
        isInProgressWaiting, hcs]
    · simp [refuseResult, completeRule, modifyRule, emit, hk]
  · have hp : (e.refuseResult rest ti message).numPausedNaming t' = e.numPausedNaming t' := by
      have h₁ := numPausedNaming_modifyRule (k := ti.forRuleInfo) (f := fun r =>
        { r.setComplete e.currentEpoch with pendingTaskInfo := none }) hns
        (by simp [isScanning, setComplete]) t'
      refine Eq.trans (numPausedNaming_modifyRule (e := e.modifyRule ti.forRuleInfo (fun r =>
        { r.setComplete e.currentEpoch with pendingTaskInfo := none })) (k := ti.forRuleInfo)
        (f := fun r => { r with result := { r.result with
          dependencies := r.result.dependencies ++ ti.discoveredDependencies } }) ?_ ?_ t') h₁ <;>
      simp [modifyRule, isScanning, setComplete]
    have hzero : (discoveredRequests ti.discoveredDependencies).countP (fun r => r.names t') = 0 := by
      refine countP_eq_zero.mpr (fun r hr => ?_)
      obtain ⟨d, -, rfl⟩ := mem_map.mp hr
      simp [TaskInputRequest.names]
    show (e.inputRequests ++ discoveredRequests ti.discoveredDependencies).countP _ +
      (e.refuseResult rest ti message).numPausedNaming t' + e.numRequestedNaming t' + _ = _
    rw [hp, countP_append, hzero, Nat.add_zero]
    rfl
  · have hk : k ≠ ti.forRuleInfo := by
      rintro rfl
      simp [RuleInfo.Done, isComplete, hcs] at hdone
    simpa [refuseResult, completeRule, modifyRule, emit, hk] using hdone

/-! ## Every reachable state -/

/-- The accounting invariant along runs. -/
theorem accounting_invariant (c : Client T W) :
    RunInvariant c (fun _ _ => True) (fun _ => True) (fun _ e _ => Delivered e) Accounted
      (fun _ _ _ => True) where
  rest_flag := fun _ _ => trivial
  loop_flag := fun _ hd => ⟨hd.finished, hd.delivered⟩
  cancel_flag := fun _ ha => ⟨ha.waitCount, ha.ready, ha.once, ha.settled, ha.delivered⟩
  built_flag := fun _ _ => trivial
  loop_error := fun message hd => ⟨hd.finished, fun r value hmem => hd.delivered r value (by
    simpa [Engine.error] using hmem)⟩
  cancel_error := fun message ha =>
    ha.of_frame [.error message] (fun t ti h => ⟨ti, h, rfl, rfl⟩)
      (fun t ti h => by simp [Engine.error, h]) (fun _ => rfl) (fun _ => rfl) rfl
      (fun _ hd => ⟨rfl, hd⟩) (by simp [isPlain]) rfl
  build := fun _ _ _ => ⟨fun r hr => absurd hr (by simp [Machine.startBuild]),
    fun r value hr => absurd hr (by simp [Machine.startBuild])⟩
  micro := fun _ hs hd hm => hm.delivered hs.linked hd
  complete := fun {m key t ti value forceChange} _ _ hd ht hc hnf =>
    (ThreadCall.taskIsComplete t ti value forceChange ht hc hnf).delivered hd
  discovered := fun {m key t ti input} _ _ hd ht hc hnf =>
    (ThreadCall.discoveredDependency (c := c) t ti input ht hc hnf).delivered hd
  succeed := fun _ _ _ _ => ⟨trivial, trivial⟩
  giveUp := fun hs hd _ => hs.accounted hd
  refuse := fun {m key w t rest ti message} _ hs hd hfin ht _ _ =>
    hs.accounted_refuseResult hd message hfin ht
  cancel_drain := fun ha => ⟨ha.waitCount, ha.ready, ha.once, ha.settled, ha.delivered⟩
  cancel_call := fun hc _ ha => hc.accounted ha
  cancelled := fun _ _ _ _ _ => trivial

/-- **Request accounting.** In every reachable state of `executeTasks` the accounts are in order. -/
theorem executeTasks_accounted {m : Machine T} {key : KeyType} {pc : Pc} {didWork : Bool}
    (hr : m.Reachable c) (hphase : m.phase = .executeTasks key pc didWork) : Accounted m.engine := by
  obtain ⟨db, hr⟩ := hr
  have hinit : (Machine.init (T := T) db).Satisfies (fun _ => True) (fun _ e _ => Delivered e) Accounted
      (fun _ _ _ => True) := by
    have hidle : (Machine.init (T := T) db).phase = .idle := by cases db <;> rfl
    simp only [Machine.Satisfies, hidle]
    exact ⟨quiet_init db, trivial⟩
  have hsat := (accounting_invariant c).holds hinit hr
  simp only [Machine.Satisfies, hphase] at hsat
  split_ifs at hsat with hpc
  · exact hsat.2
  · exact hsat.1.accounted hsat.2.1

/-- A client in which the task of every key requests a fixed list of inputs when it starts, and completes
    with its own key. -/
def fixedClient (inputs : KeyType → List KeyType) : Client KeyType Unit where
  signature := fun _ => 0
  isResultValid := fun _ _ _ => true
  createTask := fun _ k => k
  start := fun _ k => (k, (inputs k).map (fun i => .request i 0))
  providePriorValue := fun _ k _ => (k, [])
  provideValue := fun _ k _ _ _ => (k, [])
  inputsAvailable := fun _ k => k
  result := fun _ k => k
  shouldResolveCycle := fun _ _ _ _ => false
  setRuleResultError := fun _ _ => none

/-- The rule `[1]` needs `[2]`; its task has been started and waits for one request. -/
def requestedRun : Option (Machine KeyType) :=
  Machine.run (fixedClient (fun k => if k = [1] then [[2]] else [])) (Machine.init none)
    [.build [1], .work (), .work (), .work ()]

theorem executeTasks_accounted_requested :
    ∃ m, requestedRun = some m ∧ m.phase = .executeTasks [1] .inputRequests true ∧
      (∃ ti, m.engine.taskInfos 0 = some ti ∧ ti.waitCount = 1) ∧ Accounted m.engine := by
  obtain ⟨m, hm⟩ : ∃ m, requestedRun = some m := Option.isSome_iff_exists.mp (by decide)
  have hphase : m.phase = .executeTasks [1] .inputRequests true := by
    have h : requestedRun.map (fun m => m.phase) = some (.executeTasks [1] .inputRequests true) := by
      decide
    simpa [hm] using h
  have htask : ∃ ti, m.engine.taskInfos 0 = some ti ∧ ti.waitCount = 1 := by
    have h : requestedRun.bind (fun m => (m.engine.taskInfos 0).map (fun ti => ti.waitCount)) = some 1 := by
      decide
    simpa [hm] using h
  exact ⟨m, hm, hphase, htask, executeTasks_accounted
    ⟨none, Machine.reachable_run _ _ m (fun _ _ _ => trivial) .refl hm⟩ hphase⟩

end Builra
