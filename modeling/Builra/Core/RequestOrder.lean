import Builra.Core.RequestLedger

namespace Builra

open Option Machine RuleInfo

/-!
# `Core.RequestOrder` — dependencies are recorded in the order of the requests

A dependency is recorded when its request is popped and the requested rule is scanned. A request that is
popped while its rule is being scanned is paused instead, and woken at the end of the queue: a request the
task made later may be recorded before it. As long as no task has a queued request behind a paused one, the
recorded dependencies of a task that has its inputs are what it has requested, in order.
-/

variable {T W : Type} {c : Client T W} {w : W}

open Engine Ledger

variable {held : List TaskInputRequest}

/-- No task has a request in the queue while another one is paused. -/
def Ledger.NoneOvertaken (l : Ledger) : Prop :=
  ∀ k, ∀ r ∈ l.paused k, ∀ t, r.taskInfo = some t → requestsOf t l.queue = []

/-- A scan keeps the order if no paused request has another one behind it. -/
theorem Ledger.InOrder.scanned {l l' : Ledger} (h : l.InOrder) (hn : l.NoneOvertaken) (hh : l.held = [])
    (hs : Ledger.Scanned l.nextTask l l') : l'.InOrder := by
  obtain ⟨l₁, hmoves, rfl | ⟨k, rfl⟩⟩ := hs
  · exact hmoves.inOrder h
  · obtain ⟨hpaused, hheld, -, hqueue⟩ := hmoves.frame
    refine (hmoves.inOrder h).wake k (fun r hr t ht => ?_)
    rw [hpaused] at hr
    -- the task was registered before this step
    have hlt : t < l.nextTask := by
      by_contra hge
      have hnil := (h.fresh t (not_lt.mp hge)).2.2.2.2 k
      exact requestsOf_eq_nil.mp hnil r hr ht
    rw [hqueue t hlt, hheld, hh]
    exact ⟨hn k r hr t ht, rfl⟩

/-! ## The other queues -/

variable {e : Engine T} {t : TaskID} {ti : TaskInfo T} {key : KeyType} {m : Machine T}

theorem ledger_pause {k : KeyType} {record : RuleScanRecord} (r : TaskInputRequest)
    (hrec : (e.ruleInfos k).pendingScanRecord = some record) :
    (e.modifyRule k (fun rule => rule.pauseInput record r)).ledger [] =
      { e.ledger [r] with
        held := []
        paused := Function.update (e.ledger [r]).paused k ((e.ledger [r]).paused k ++ [r]) } := by
  refine Ledger.ext rfl rfl (funext fun k' => ?_) (funext fun t => ?_) rfl rfl
  · by_cases heq : k' = k
    · subst heq
      simp [ledger, modifyRule, RuleInfo.pauseInput, RuleInfo.paused, hrec]
    · simp [ledger, modifyRule, heq]
  · cases hti : e.taskInfos t with
    | none => simp [ledger, modifyRule, hti]
    | some ti =>
      by_cases heq : ti.forRuleInfo = k
      · simp [ledger, modifyRule, pauseInput, hti, heq]
      · simp [ledger, modifyRule, hti, heq]

theorem ledger_recordDependency (hl : Linked e) (ht : e.taskInfos t = some ti) (r : TaskInputRequest) :
    (e.recordDependency ti.forRuleInfo r).ledger [] =
      { e.ledger [r] with
        held := []
        recorded := Function.update (e.ledger [r]).recorded t
          (((e.ledger [r]).recorded t).map (fun deps => deps ++ [r.dependency])) } := by
  refine Ledger.ext rfl rfl (funext fun k' => ?_) (funext fun t' => ?_) rfl rfl
  · by_cases heq : k' = ti.forRuleInfo
    · subst heq
      simp [ledger, recordDependency, modifyRule, RuleInfo.paused]
    · simp [ledger, recordDependency, modifyRule, heq]
  · by_cases heq : t' = t
    · subst heq
      simp [ledger, recordDependency, modifyRule, ht, TaskInputRequest.dependency]
    · cases hti : e.taskInfos t' with
      | none => simp [ledger, recordDependency, modifyRule, hti, heq]
      | some ti' =>
        -- a rule has one task
        have hne : ti'.forRuleInfo ≠ ti.forRuleInfo := fun h => heq (hl.task_unique hti ht h)
        simp [ledger, recordDependency, modifyRule, hti, heq, hne]

/-- A popped request is paused or recorded; its task has no paused request by then. -/
theorem processInputRequest_inOrder {request : TaskInputRequest} {rest : List TaskInputRequest} (hl : Linked e)
    (hq : e.inputRequests = request :: rest) (h : (e.ledger []).InOrder) (hn : (e.ledger []).NoneOvertaken) :
    ({ e with inputRequests := rest }.processInputRequest c w request).trapped = true ∨
      (({ e with inputRequests := rest }.processInputRequest c w request).ledger []).InOrder := by
  have hpop : ({ e with inputRequests := rest }.ledger [request]).InOrder := h.pop hq rfl
  have hfree : ∀ t, request.taskInfo = some t → ∀ k,
      requestsOf t (({ e with inputRequests := rest }.ledger [request]).paused k) = [] := by
    intro t ht k
    refine requestsOf_eq_nil.mpr (fun r hr hrt => ?_)
    have hnil := hn k r hr t hrt
    rw [show (e.ledger []).queue = request :: rest from hq] at hnil
    exact requestsOf_eq_nil.mp hnil request List.mem_cons_self ht
  have hl₀ : Linked { e with inputRequests := rest } := hl.congr rfl rfl rfl rfl
  generalize ({ e with inputRequests := rest } : Engine T) = e₀ at hpop hfree hl₀ ⊢
  unfold processInputRequest
  -- scan the requested rule
  have hscan := scanRule_spec c w {} e₀ request.inputRuleInfo
  have hl₁ : Linked (e₀.scanRule c w request.inputRuleInfo).1 := Micros.linked hscan.micros hl₀
  have hled₁ : (e₀.scanRule c w request.inputRuleInfo).1.ledger [request] = e₀.ledger [request] :=
    ledger_scanRule hl₀ request.inputRuleInfo
  dsimp only
  generalize (e₀.scanRule c w request.inputRuleInfo).1 = e₁ at hscan hl₁ hled₁ ⊢
  generalize (e₀.scanRule c w request.inputRuleInfo).2 = isScanned at hscan ⊢
  rw [← hled₁] at hpop hfree
  cases isScanned with
  | false =>
    simp only [Bool.not_false, if_true, modifyScanRecord]
    cases hrec : (e₁.ruleInfos request.inputRuleInfo).pendingScanRecord with
    | none => exact .inl rfl
    | some record =>
      right
      show ((e₁.modifyRule request.inputRuleInfo (fun rule => rule.pauseInput record request)).ledger []).InOrder
      rw [ledger_pause request hrec]
      exact hpop.pause request.inputRuleInfo rfl hfree
  | true =>
    -- demand the requested rule
    have hdem := demandRule_spec c w .none (by simp) (hscan.scanned rfl)
    have hl₂ : Linked (e₁.demandRule c w request.inputRuleInfo).1 := Micros.linked hdem.micros hl₁
    have hmoves : Ledger.Moves e₁.nextTask (e₁.ledger [request])
        ((e₁.demandRule c w request.inputRuleInfo).1.ledger [request]) := demandRule_moves hl₁ (hscan.scanned rfl)
    simp only [Bool.not_true, Bool.false_eq_true, if_false]
    generalize (e₁.demandRule c w request.inputRuleInfo).1 = e₂ at hdem hl₂ hmoves ⊢
    generalize (e₁.demandRule c w request.inputRuleInfo).2 = isAvailable at hdem ⊢
    have horder := hmoves.inOrder hpop
    rw [← hmoves.frame.1] at hfree
    cases hreq : request.taskInfo with
    | none => exact .inr (horder.drop rfl hreq)
    | some t =>
      dsimp only
      cases hti : e₂.taskInfos t with
      | none => exact .inl rfl
      | some ti =>
        right
        dsimp only
        have hrecorded : ((e₂.recordDependency ti.forRuleInfo request).ledger []).InOrder := by
          rw [ledger_recordDependency hl₂ hti]
          exact horder.record rfl hreq (hfree t hreq)
        cases isAvailable with
        | true => exact hrecorded
        | false =>
          simp only [Bool.false_eq_true, if_false]
          rw [ledger_modifyPendingTask]
          · exact hrecorded
          · exact fun _ => rfl

/-- A delivered value makes its task request more. -/
theorem processFinishedInputRequest_inOrder {request : TaskInputRequest} (hl : Linked e)
    (hw : ∀ t ti, request.taskInfo = some t → e.taskInfos t = some ti →
      (e.ruleInfos ti.forRuleInfo).isInProgressWaiting = true) (h : (e.ledger []).InOrder) :
    (e.processFinishedInputRequest c w request).trapped = true ∨
      ((e.processFinishedInputRequest c w request).ledger []).InOrder := by
  unfold processFinishedInputRequest
  cases ht : request.taskInfo with
  | none => exact .inl rfl
  | some t =>
    right
    dsimp only
    rw [ledger_decrementTaskWaitCount]
    have hemit : ((e.emit (.completedTaskInputRequest request
        (e.ruleInfos request.inputRuleInfo).result.value)).ledger []) = e.ledger [] :=
      ledger_emit e _ (fun _ => rfl)
    split_ifs
    · rw [hemit]
      exact h
    · cases hti : e.taskInfos t with
      | none =>
        have htrap : ∀ f : T → T × List TaskCall, ((e.emit (.completedTaskInputRequest request
            (e.ruleInfos request.inputRuleInfo).result.value)).callback c t f).ledger [] = e.ledger [] := by
          intro f
          rw [← hemit]
          simp only [callback, emit, hti]
          rfl
        rw [htrap]
        exact h
      | some ti =>
        rw [← hemit] at h
        have hlt : t < (e.emit (.completedTaskInputRequest request
            (e.ruleInfos request.inputRuleInfo).result.value)).nextTask := hl.lt_nextTask hti
        have hti' : (e.emit (.completedTaskInputRequest request
            (e.ruleInfos request.inputRuleInfo).result.value)).taskInfos t = some ti := hti
        refine Ledger.Moves.inOrder (n := 0) ?_ h
        exact callback_moves (Nat.zero_le t) _ hti' hlt (hw t ti ht hti)

theorem ledger_processReadyTask (e : Engine T) (t : TaskID) :
    (e.processReadyTask c w t).trapped = true ∨ (e.processReadyTask c w t).ledger held = e.ledger held := by
  unfold processReadyTask
  cases hti : e.taskInfos t with
  | none => exact .inl rfl
  | some ti =>
    right
    show ((((e.modifyRule ti.forRuleInfo (fun r => { r with state := .inProgressComputing })).modifyTask t
      (fun ti => { ti with task := c.inputsAvailable w ti.task })).emit (.inputsAvailable t)).ledger held) = _
    rw [ledger_emit _ _ (fun _ => rfl), ledger_modifyTask, ledger_modifyRule_same]
    · rfl
    · rfl
    · exact fun _ => rfl

/-- A finished task is released, and dummy requests are made for its discovered dependencies. -/
theorem processFinishedTask_inOrder (hl : Linked e) (ht : e.taskInfos t = some ti) (db : Option BuildDB)
    (rest : List TaskID) (h : (e.ledger []).InOrder) :
    (({ { e with finishedTaskInfos := rest }.completeRule ti with db := db }.releaseTask t ti).ledger []).InOrder := by
  have hled : ({ { e with finishedTaskInfos := rest }.completeRule ti with db := db }.releaseTask t ti).ledger [] =
      { e.ledger [] with
        recorded := Function.update (e.ledger []).recorded t none
        queue := e.inputRequests ++ discoveredRequests ti.discoveredDependencies } := by
    refine Ledger.ext rfl rfl (funext fun k' => ?_) (funext fun t' => ?_) (funext fun t' => ?_) rfl
    · by_cases heq : k' = ti.forRuleInfo
      · subst heq
        simp [ledger, releaseTask, completeRule, modifyRule, emit, RuleInfo.paused, RuleInfo.setComplete]
      · simp [ledger, releaseTask, completeRule, modifyRule, emit, heq]
    · by_cases heq : t' = t
      · subst heq
        simp [ledger, releaseTask]
      · cases hti : e.taskInfos t' with
        | none => simp [ledger, releaseTask, completeRule, modifyRule, emit, hti, heq]
        | some ti' =>
          have hne : ti'.forRuleInfo ≠ ti.forRuleInfo := fun h => heq (hl.task_unique hti ht h)
          simp [ledger, releaseTask, completeRule, modifyRule, emit, hti, heq, hne]
    · show (Engine.askedBy _ t').map _ = (e.askedBy t').map _
      rw [askedBy_cons (e := e) rfl (fun _ => rfl) t']
  rw [hled]
  have hdummies : ∀ r ∈ discoveredRequests ti.discoveredDependencies, r.taskInfo = none := by
    intro r hr
    obtain ⟨d, -, rfl⟩ := List.mem_map.mp hr
    rfl
  exact (Ledger.Move.addDummies (n := 0) _ hdummies).inOrder ((Ledger.Move.release (n := 0) t).inOrder h)

/-! ## Breaking a cycle -/

theorem breakCycle_true {cycleList : List KeyType} {e' : Engine T} :
    ∀ rest, e.breakCycle c w cycleList rest = some (e', true) →
      (∃ k, (e.ruleInfos k).isScanning = true ∧ e' = e.forceBuild k) ∨
        ∃ t request, e' = e.supplyPriorValue t request := by
  intro rest
  induction rest with
  | nil => exact fun h => absurd h (by simp [breakCycle])
  | cons k rest ih =>
    intro h
    simp only [breakCycle] at h
    by_cases hs : (e.ruleInfos k).isScanning = true
    · rw [if_pos hs] at h
      split_ifs at h
      · obtain ⟨rfl, -⟩ := Prod.mk.inj (some.inj h)
        exact .inl ⟨k, hs, rfl⟩
      · exact absurd h (by simp)
    rw [if_neg hs] at h
    by_cases hw : ((e.ruleInfos k).isInProgressWaiting && decide ((e.ruleInfos k).result.builtAt ≠ 0)) = true
    · rw [if_pos hw] at h
      split at h
      · split at h
        · exact ih h
        · split_ifs at h
          · obtain ⟨rfl, -⟩ := Prod.mk.inj (some.inj h)
            exact .inr ⟨_, _, rfl⟩
          · exact absurd h (by simp)
      · exact absurd h (by simp)
    · rw [if_neg hw] at h
      exact ih h

theorem ledger_supplyPriorValue (e : Engine T) (t : TaskID) (request : TaskInputRequest) :
    (e.supplyPriorValue t request).ledger held = e.ledger held := by
  unfold supplyPriorValue
  rw [ledger_modifyTask]
  · rfl
  · exact fun _ => rfl

theorem ledger_forceBuild (hl : Linked e) {k : KeyType} (hs : (e.ruleInfos k).isScanning = true) :
    (e.forceBuild k).trapped = true ∨ (e.forceBuild k).ledger held = (e.ledger held).wake k := by
  unfold forceBuild
  dsimp only
  generalize hrest : (e.ruleInfosToScan.reverse.eraseP
    (fun (request : RuleScanRequest) => request.ruleInfo = k)).reverse = rest
  have hl' : Linked { e with ruleInfosToScan := rest } := hl.congr rfl rfl rfl rfl
  have hfinish : (({ e with ruleInfosToScan := rest } : Engine T).finishScanRequest k .needsToRun).trapped = true ∨
      (({ e with ruleInfosToScan := rest } : Engine T).finishScanRequest k .needsToRun).ledger held =
        (e.ledger held).wake k := ledger_finishScanRequest hl' hs
  rcases hfinish with htrap | hwake
  · exact .inl htrap
  · right
    rw [ledger_modifyRule_same]
    · rw [ledger_emit _ _ (fun _ => rfl)]
      exact hwake
    · rfl
    · rfl

/-- A cycle is broken when the queue is empty, so that what is woken is in order. -/
theorem resolveCycle_inOrder {e' : Engine T} (hl : Linked e) (hq : e.inputRequests = []) (h : (e.ledger []).InOrder)
    (hres : e.resolveCycle c w key = some (e', true)) :
    e'.trapped = true ∨ (e'.ledger []).InOrder := by
  have hbreak : e.breakCycle c w (e.findCycle key) (e.findCycle key).reverse = some (e', true) := by
    simp only [resolveCycle] at hres
    split_ifs at hres
    split at hres
    · rename_i e₁ heq
      obtain ⟨rfl, -⟩ := Prod.mk.inj (some.inj hres)
      exact heq
    · exact absurd hres (by simp)
    · exact absurd hres (by simp)
  rcases breakCycle_true _ hbreak with ⟨k, hs, rfl⟩ | ⟨t, request, rfl⟩
  · have hforce : (e.forceBuild k).trapped = true ∨ (e.forceBuild k).ledger [] = (e.ledger []).wake k :=
      ledger_forceBuild hl hs
    refine hforce.imp id (fun hwake => ?_)
    rw [hwake]
    refine h.wake k (fun r _ t _ => ⟨?_, rfl⟩)
    rw [show (e.ledger []).queue = [] from hq]
    rfl
  · right
    rw [ledger_supplyPriorValue]
    exact h

/-! ## Runs -/

/-- A new build has made no request. -/
theorem startBuild_inOrder (hq : Quiet e) (key : KeyType) :
    ((Machine.startBuild e key).ledger []).InOrder := by
  have hqueue : ∀ t, requestsOf t ((startBuild e key).ledger []).queue = [] := by
    intro t
    refine requestsOf_dummies (fun r hr => ?_) t
    have hroot : r = rootRequest key := by
      simpa [ledger, startBuild, hq.inputRequests] using hr
    rw [hroot]
    rfl
  refine ⟨fun t deps hdeps => ?_, fun t _ => ⟨?_, rfl, hqueue t, rfl, fun k => ?_⟩⟩
  · exact absurd hdeps (by simp [ledger, startBuild, hq.tasks t])
  · simp [ledger, startBuild, hq.tasks t]
  · simp [ledger, Machine.startBuild, RuleInfo.paused, hq.records k]

/-- No task has a request in `inputRequests` while another one is paused on the scan of a rule. -/
def Engine.NoneOvertaken (e : Engine T) : Prop :=
  ∀ k ∈ e.ruleKeys, ∀ r ∈ (e.ruleInfos k).paused, ∀ r' ∈ e.inputRequests,
    r.taskInfo ≠ none → r'.taskInfo ≠ r.taskInfo

instance (e : Engine T) : Decidable e.NoneOvertaken := by
  unfold Engine.NoneOvertaken
  infer_instance

theorem noneOvertaken_ledger (hl : Linked e) (hn : e.NoneOvertaken) :
    (e.ledger held).NoneOvertaken := by
  intro k r hr t ht
  have hk : k ∈ e.ruleKeys := by
    by_contra hk
    rw [show (e.ledger held).paused k = (e.ruleInfos k).paused from rfl, RuleInfo.paused,
      (hl.keys k hk).2] at hr
    exact absurd hr (by simp)
  refine requestsOf_eq_nil.mpr (fun r' hr' => ?_)
  rw [← ht]
  exact hn k hk r hr r' hr' (by simp [ht])

/-- The engine thread takes its steps in such states only. -/
def Machine.NoneOvertaken (m : Machine T) : Action W → Prop
  | .work _ => m.engine.NoneOvertaken
  | _ => True

instance (m : Machine T) (a : Action W) : Decidable (m.NoneOvertaken a) := by
  cases a with
  | work w => exact inferInstanceAs (Decidable m.engine.NoneOvertaken)
  | _ => exact inferInstanceAs (Decidable True)

/-- The requests are in order until the remaining tasks are cancelled. -/
def Machine.InOrder (m : Machine T) : Prop :=
  ∀ key pc didWork, m.phase = .executeTasks key pc didWork → pc ≠ .cancelRemainingTasks →
    (m.engine.ledger []).InOrder

theorem inOrder_continueAt {pc : Pc} {didWork : Bool} (h : e.trapped = true ∨ (e.ledger []).InOrder) :
    (Machine.continueAt e key pc didWork).InOrder := by
  intro key' pc' didWork' hphase _
  unfold continueAt at hphase ⊢
  rcases h with htrap | h
  · simp [htrap] at hphase
  · split_ifs
    · exact h
    · exact h

theorem inOrder_cancel (e : Engine T) (key : KeyType) (didWork : Bool) :
    (Machine.continueAt e key .cancelRemainingTasks didWork).InOrder := by
  intro key' pc' didWork' hphase hpc
  unfold continueAt at hphase
  split_ifs at hphase
  · injection hphase with _ heq
    exact absurd heq.symm hpc

theorem inOrder_finish (e : Engine T) (key : KeyType) (success : Bool) :
    (Machine.finish e key success).InOrder :=
  fun _ _ _ hphase _ => absurd hphase (by simp [finish])

/-- **A step of the engine thread** keeps the requests in order if none is overtaken. -/
theorem work_inOrder {pc : Pc} {didWork : Bool} {m' : Machine T} (hs : Sound e {}) (hp : PcInv e didWork pc)
    (h : (e.ledger []).InOrder) (hn : e.NoneOvertaken) (hpc : pc ≠ .cancelRemainingTasks)
    (hstep : Machine.work c w e key didWork pc = some m') : m'.InOrder := by
  have hl := hs.linked
  replace hn : (e.ledger []).NoneOvertaken := noneOvertaken_ledger hl hn
  cases pc with
  | cancelRemainingTasks => exact absurd rfl hpc
  | top =>
    simp only [work] at hstep
    split_ifs at hstep
    · cases hstep
      exact inOrder_cancel _ _ _
    · cases hstep
      exact inOrder_continueAt (.inr h)
  | ruleInfosToScan =>
    simp only [work] at hstep
    split at hstep
    · cases hstep
      exact inOrder_continueAt (.inr h)
    · rename_i request rest hq
      cases hstep
      have hl' : Linked { e with ruleInfosToScan := rest } := hl.congr rfl rfl rfl rfl
      apply inOrder_continueAt
      exact (processRuleScanRequest_scanned hl' request).imp id (fun hscan => h.scanned hn rfl hscan)
  | inputRequests =>
    simp only [work] at hstep
    split at hstep
    · cases hstep
      exact inOrder_continueAt (.inr h)
    · rename_i request rest hq
      cases hstep
      apply inOrder_continueAt
      exact processInputRequest_inOrder hl hq h hn
  | finishedInputRequests =>
    simp only [work] at hstep
    split at hstep
    · cases hstep
      exact inOrder_continueAt (.inr h)
    · rename_i request rest hq
      cases hstep
      have hl' : Linked { e with finishedInputRequests := rest } := hl.congr rfl rfl rfl rfl
      apply inOrder_continueAt
      refine processFinishedInputRequest_inOrder hl' (fun t ti htask hti => ?_) h
      -- a task that a request names is waiting
      refine hs.waiting_of_queued htask hti ?_
      show request ∈ _ + (e.finishedInputRequests : Multiset TaskInputRequest) + _
      rw [hq]
      simp
  | readyTaskInfos =>
    simp only [work] at hstep
    split at hstep
    · cases hstep
      exact inOrder_continueAt (.inr h)
    · rename_i t rest hq
      cases hstep
      apply inOrder_continueAt
      have hready : ({ e with readyTaskInfos := rest }.processReadyTask c w t).trapped = true ∨
          ({ e with readyTaskInfos := rest }.processReadyTask c w t).ledger [] = e.ledger [] :=
        ledger_processReadyTask _ t
      refine hready.imp id (fun hled => ?_)
      rw [hled]
      exact h
  | finishedTaskInfos =>
    simp only [work] at hstep
    split at hstep
    · cases hstep
      exact inOrder_continueAt (.inr h)
    · rename_i t rest hq
      cases hstep
      cases hstored : ({ e with finishedTaskInfos := rest }.processFinishedTask c w t).2 with
      | false => exact inOrder_cancel _ _ _
      | true =>
        apply inOrder_continueAt
        unfold processFinishedTask at hstored ⊢
        cases ht : e.taskInfos t with
        | none => exact .inl rfl
        | some ti =>
          right
          simp only [ht] at hstored ⊢
          split at hstored
          · exact processFinishedTask_inOrder hl ht _ rest h
          · split at hstored
            · exact processFinishedTask_inOrder hl ht _ rest h
            · exact absurd hstored (by simp)
  | wait =>
    simp only [work] at hstep
    split_ifs at hstep with hdid hout hfin htasks
    · cases hstep
      exact inOrder_continueAt (.inr h)
    · cases hstep
      exact inOrder_continueAt (.inr h)
    · have hq : e.inputRequests = [] := (hp (by simpa using hdid)).2.1
      split at hstep
      · cases hstep
        exact fun _ _ _ hphase _ => absurd hphase (by simp)
      · rename_i e' hres
        cases hstep
        exact inOrder_continueAt (resolveCycle_inOrder hl hq h hres)
      · cases hstep
        exact inOrder_cancel _ _ _
    · cases hstep
      exact inOrder_finish _ _ _

theorem ledger_taskIsComplete (e : Engine T) (t : TaskID) (value : ValueType) (forceChange : Bool) :
    (e.taskIsComplete c t value forceChange).trapped = true ∨
      (e.taskIsComplete c t value forceChange).ledger held = e.ledger held := by
  unfold taskIsComplete
  cases e.taskInfos t with
  | none => exact .inl rfl
  | some ti =>
    right
    dsimp only
    split_ifs
    · rw [← ledger_modifyRule_same (e := e) ti.forRuleInfo (fun r =>
        { r with result := storeValue (c.signature ti.forRuleInfo) e.currentEpoch value forceChange r.result }) rfl]
      · rfl
      · -- a completion does not touch the dependencies
        unfold storeValue
        dsimp only
        split_ifs
        · rfl
        · rfl
    · exact ledger_error e _

theorem ledger_taskDiscoveredDependency (e : Engine T) (t : TaskID) (key : KeyType) :
    (e.taskDiscoveredDependency t key).trapped = true ∨
      (e.taskDiscoveredDependency t key).ledger held = e.ledger held := by
  unfold taskDiscoveredDependency
  cases e.taskInfos t with
  | none => exact .inl rfl
  | some ti =>
    right
    dsimp only
    split_ifs
    · exact ledger_modifyTask e t (fun _ => rfl)
    · exact ledger_error e _

/-- A call of another thread leaves the ledger alone. -/
theorem external_inOrder (f : Engine T → Engine T) (h : m.InOrder)
    (hf : (f m.engine).trapped = true ∨ (f m.engine).ledger [] = m.engine.ledger []) :
    (m.external f).InOrder := by
  unfold external
  split
  · rename_i key pc didWork hphase
    by_cases hpc : pc = .cancelRemainingTasks
    · subst hpc
      exact inOrder_cancel _ _ _
    · apply inOrder_continueAt
      refine hf.imp id (fun hled => ?_)
      rw [hled]
      exact h key pc didWork hphase hpc
  · rename_i hne
    exact fun key pc didWork hphase _ => absurd hphase (hne key pc didWork)

/-- The linked tables and the balanced accounts, along runs. -/
abbrev SoundKept (m : Machine T) : Prop :=
  m.Satisfies (fun _ => True) (fun _ e _ => Delivered e) Accounted (fun _ _ _ => True)

/-- **Every step keeps the requests in order** if none is overtaken. -/
theorem step_inOrder {m' : Machine T} {a : Action W} (hs : SoundKept m) (h : m.InOrder) (hn : m.NoneOvertaken a)
    (hstep : m.step c a = some m') : m'.InOrder := by
  cases a with
  | build key =>
    have hquiet : Quiet m.engine ∧ m' = m.build key := by
      cases hphase : m.phase with
      | idle | returned key' success value =>
        simp only [SoundKept, Machine.Satisfies, hphase] at hs
        simp only [step, hphase, some.injEq] at hstep
        exact ⟨hs.1, hstep.symm⟩
      | executeTasks key' pc didWork | crashed => simp [step, hphase] at hstep
    obtain ⟨hq, rfl⟩ := hquiet
    unfold build
    split_ifs
    · exact fun _ _ _ hphase _ => absurd hphase (by simp)
    · exact fun _ _ _ _ _ => startBuild_inOrder hq key
  | resetForBuild =>
    simp only [step] at hstep
    split at hstep
    · exact absurd hstep (by simp)
    · cases hstep
      exact fun key pc didWork hphase hpc => h key pc didWork hphase hpc
  | work w =>
    cases hphase : m.phase with
    | executeTasks key pc didWork =>
      simp only [step, hphase] at hstep
      by_cases hpc : pc = .cancelRemainingTasks
      · subst hpc
        simp only [work] at hstep
        split_ifs at hstep
        · cases hstep
          exact inOrder_cancel _ _ _
        · cases hstep
          exact inOrder_finish _ _ _
      · simp only [SoundKept, Machine.Satisfies, hphase, if_neg hpc] at hs
        exact work_inOrder hs.1 hs.2.2 (h key pc didWork hphase hpc) hn hpc hstep
    | _ => simp [step, hphase] at hstep
  | complete t value forceChange =>
    cases hphase : m.phase with
    | executeTasks key pc didWork =>
      simp only [step, hphase] at hstep
      split_ifs at hstep
      cases hstep
      exact external_inOrder _ h (ledger_taskIsComplete m.engine t value forceChange)
    | _ => simp [step, hphase] at hstep
  | discoveredDependency t key =>
    cases hphase : m.phase with
    | executeTasks key' pc didWork =>
      simp only [step, hphase] at hstep
      split_ifs at hstep
      cases hstep
      exact external_inOrder _ h (ledger_taskDiscoveredDependency m.engine t key)
    | _ => simp [step, hphase] at hstep
  | cancelBuild =>
    simp only [step] at hstep
    split at hstep
    · exact absurd hstep (by simp)
    · cases hstep
      exact external_inOrder _ h (.inr rfl)

theorem reachable_inOrder {db : Option BuildDB}
    (hr : Machine.ReachableFrom c Machine.NoneOvertaken (Machine.init db) m) : SoundKept m ∧ m.InOrder := by
  induction hr with
  | refl =>
    have hidle : (init (T := T) db).phase = .idle := by cases db <;> rfl
    constructor
    · simp only [SoundKept, Machine.Satisfies, hidle]
      exact ⟨quiet_init db, trivial⟩
    · intro _ _ _ hphase _
      rw [hidle] at hphase
      exact absurd hphase (by simp)
  | step a _ hok hstep ih =>
    exact ⟨(accounting_invariant c).satisfies_step trivial ih.1 hstep, step_inOrder ih.1 ih.2 hok hstep⟩

/-- What is paused on a rule is on the board. -/
theorem mem_paused (hl : Linked e) {k : KeyType} {r : TaskInputRequest} (hr : r ∈ (e.ruleInfos k).paused) :
    r ∈ e.paused := by
  cases hrec : (e.ruleInfos k).pendingScanRecord with
  | none => exact absurd hr (by simp [RuleInfo.paused, hrec])
  | some record =>
    have hk : k ∈ e.ruleKeys := by
      by_contra hk
      rw [(hl.keys k hk).2] at hrec
      exact absurd hrec (by simp)
    refine Multiset.mem_sum.mpr ⟨k, List.mem_toFinset.mpr hk, ?_⟩
    rw [pausedRequests_of_record hrec]
    simpa [RuleInfo.paused, hrec] using hr

/-- A task that is computing has no request left. -/
theorem recorded_eq_asked (hs : Sound e {}) (h : (e.ledger []).InOrder) (ht : e.taskInfos t = some ti)
    (hc : (e.ruleInfos ti.forRuleInfo).isInProgressComputing = true) :
    (e.ruleInfos ti.forRuleInfo).result.dependencies = (e.askedBy t).map (fun r => r.dependency) := by
  have hleft : ∀ r, r ∈ (e.board {}).queued → r.taskInfo ≠ some t := by
    intro r hr hrt
    have hw := hs.waiting_of_queued hrt ht hr
    simp only [isInProgressComputing, decide_eq_true_eq] at hc
    simp [isInProgressWaiting, hc] at hw
  have hqueue : requestsOf t e.inputRequests = [] := by
    refine requestsOf_eq_nil.mpr (fun r hr => hleft r ?_)
    simp only [board, Multiset.mem_add, Multiset.mem_coe]
    exact .inl (.inl (.inl (.inl hr)))
  have hpaused : ∀ k, requestsOf t (e.ruleInfos k).paused = [] := by
    refine fun k => requestsOf_eq_nil.mpr (fun r hr => hleft r ?_)
    have hmem : r ∈ e.paused := mem_paused hs.linked hr
    simp only [board, Multiset.mem_add]
    exact .inl (.inl (.inl (.inr hmem)))
  obtain ⟨waiting, hwait, hasked⟩ := h.ordered t (e.ruleInfos ti.forRuleInfo).result.dependencies (by
    simp [ledger, ht])
  obtain rfl := hwait.eq_nil hpaused
  have hasked' : (e.askedBy t).map (fun r => r.dependency) =
      (e.ruleInfos ti.forRuleInfo).result.dependencies ++
        (requestsOf t e.inputRequests).map (fun r => r.dependency) := by
    simpa [ledger] using hasked
  rw [hasked', hqueue]
  simp

theorem processFinishedTask_dependencies (ht : e.taskInfos t = some ti) :
    ((e.processFinishedTask c w t).1.ruleInfos ti.forRuleInfo).result.dependencies =
      (e.ruleInfos ti.forRuleInfo).result.dependencies ++ ti.discoveredDependencies := by
  have hdeps : ((e.completeRule ti).ruleInfos ti.forRuleInfo).result.dependencies =
      (e.ruleInfos ti.forRuleInfo).result.dependencies ++ ti.discoveredDependencies := by
    simp [completeRule, modifyRule, emit, setComplete]
  rw [← hdeps]
  unfold processFinishedTask
  rw [ht]
  dsimp only
  split
  · rfl
  · split
    · rfl
    · rfl

/-- **Dependency order.** When a finished task is popped, what is recorded for its rule is what the task has
    requested, in order and with the flags; its discovered dependencies are appended to that. -/
theorem completed_inOrder {db : Option BuildDB} {m : Machine T} {key : KeyType} {didWork : Bool} {t : TaskID}
    {rest : List TaskID} (hr : Machine.ReachableFrom c Machine.NoneOvertaken (Machine.init db) m)
    (hphase : m.phase = .executeTasks key .finishedTaskInfos didWork)
    (hfin : m.engine.finishedTaskInfos = t :: rest) :
    ∃ ti, m.engine.taskInfos t = some ti ∧
      (m.engine.ruleInfos ti.forRuleInfo).result.dependencies =
        (m.engine.askedBy t).map (fun r => r.dependency) ∧
      ((({ m.engine with finishedTaskInfos := rest } : Engine T).processFinishedTask c w t).1.ruleInfos
          ti.forRuleInfo).result.dependencies =
        (m.engine.askedBy t).map (fun r => r.dependency) ++ ti.discoveredDependencies := by
  obtain ⟨hs, h⟩ := reachable_inOrder hr
  have horder := h key .finishedTaskInfos didWork hphase (by simp)
  simp only [SoundKept, Machine.Satisfies, hphase, reduceCtorEq, if_false] at hs
  have hsound := hs.1
  obtain ⟨n, hn⟩ := hsound.board.finished t (by
    show t ∈ m.engine.finishedTaskInfos
    rw [hfin]
    exact List.mem_cons_self)
  have hst : m.engine.status t = some ⟨n, true⟩ := hn
  obtain ⟨ti, ht, hti⟩ := map_eq_some_iff.mp hst
  have hc : (m.engine.ruleInfos ti.forRuleInfo).isInProgressComputing = true := by
    have heq := congrArg TaskStatus.computing hti
    exact heq
  have hrecorded := recorded_eq_asked hsound horder ht hc
  refine ⟨ti, ht, hrecorded, ?_⟩
  rw [← hrecorded]
  exact processFinishedTask_dependencies (e := { m.engine with finishedTaskInfos := rest }) ht

/-- Run a list of actions as long as each one meets `ok`. -/
def Machine.runWhile (c : Client T W) (ok : Machine T → Action W → Prop) [∀ m a, Decidable (ok m a)]
    (m : Machine T) : List (Action W) → Option (Machine T)
  | [] => some m
  | a :: rest => if ok m a then (m.step c a).bind (fun m' => runWhile c ok m' rest) else none

theorem reachable_runWhile {ok : Machine T → Action W → Prop} [∀ m a, Decidable (ok m a)] {m₀ : Machine T} :
    ∀ (actions : List (Action W)) (m m' : Machine T), Machine.ReachableFrom c ok m₀ m →
      Machine.runWhile c ok m actions = some m' → Machine.ReachableFrom c ok m₀ m' := by
  intro actions
  induction actions with
  | nil =>
    intro m m' hr h
    cases h
    exact hr
  | cons a rest ih =>
    intro m m' hr h
    simp only [runWhile] at h
    split_ifs at h with hok
    obtain ⟨m₁, hstep, hrest⟩ := bind_eq_some_iff.mp h
    exact ih m₁ m' (.step a hr hok hstep) hrest

/-- The rule `[1]` needs `[2]` and `[3]`. -/
def pairClient : Client KeyType Unit := fixedClient (fun k => if k = [1] then [[2], [3]] else [])

/-- Nothing has been built before: nothing is scanned, and the task of `[1]` is about to be popped. -/
def pairRun : Option (Machine KeyType) :=
  Machine.runWhile pairClient Machine.NoneOvertaken (Machine.init none)
    (.build [1] :: List.replicate 10 (.work ()) ++ [.complete 1 [2] false, .complete 2 [3] false] ++
      List.replicate 12 (.work ()) ++ [.complete 0 [1] false])

theorem completed_inOrder_pair :
    ∃ m ti, pairRun = some m ∧ m.phase = .executeTasks [1] .finishedTaskInfos true ∧
      m.engine.finishedTaskInfos = [0] ∧ m.engine.taskInfos 0 = some ti ∧
      (m.engine.ruleInfos ti.forRuleInfo).result.dependencies =
        (m.engine.askedBy 0).map (fun r => r.dependency) := by
  obtain ⟨m, hm⟩ : ∃ m, pairRun = some m := isSome_iff_exists.mp (by decide +kernel)
  have hphase : m.phase = .executeTasks [1] .finishedTaskInfos true := by
    have h : pairRun.map (fun m => m.phase) = some (.executeTasks [1] .finishedTaskInfos true) := by
      decide +kernel
    simpa [hm] using h
  have hfin : m.engine.finishedTaskInfos = [0] := by
    have h : pairRun.map (fun m => m.engine.finishedTaskInfos) = some [0] := by decide +kernel
    simpa [hm] using h
  have hr : Machine.ReachableFrom pairClient Machine.NoneOvertaken (init none) m :=
    reachable_runWhile _ _ m .refl hm
  obtain ⟨ti, hti, hdeps, -⟩ := completed_inOrder (w := ()) hr hphase hfin
  exact ⟨m, ti, hm, hphase, hfin, hti, hdeps⟩

/-- An earlier build has stored `[2]`, with the input `[4]`, and `[4]`. -/
def storedInput : BuildDB where
  iteration := 1
  results := fun k =>
    if k = [2] then some { builtAt := 1, computedAt := 1, dependencies := [{ keyID := [4] }] }
    else if k = [4] then some { builtAt := 1, computedAt := 1 }
    else none

/-- `[2]` is scanned while the request for `[3]` is popped. -/
def overtakenRun : Option (Machine KeyType) :=
  Machine.run pairClient (Machine.init (some storedInput))
    (.build [1] :: List.replicate 16 (.work ()) ++ [.complete 1 [3] false] ++ List.replicate 13 (.work ()) ++
      [.complete 0 [1] false])

/-- `[1]` has requested `[2]` and then `[3]`; they are recorded the other way round. -/
theorem completed_overtaken :
    ∃ m : Machine KeyType, m.Reachable pairClient ∧ m.phase = .executeTasks [1] .finishedTaskInfos true ∧
      m.engine.finishedTaskInfos = [0] ∧ (m.engine.taskInfos 0).map (fun ti => ti.forRuleInfo) = some [1] ∧
      (m.engine.askedBy 0).map (fun r => r.dependency) = [{ keyID := [2] }, { keyID := [3] }] ∧
      (m.engine.ruleInfos [1]).result.dependencies = [{ keyID := [3] }, { keyID := [2] }] ∧
      ¬ ∃ ti, m.engine.taskInfos 0 = some ti ∧
        (m.engine.ruleInfos ti.forRuleInfo).result.dependencies =
          (m.engine.askedBy 0).map (fun r => r.dependency) := by
  obtain ⟨m, hm⟩ : ∃ m, overtakenRun = some m := isSome_iff_exists.mp (by decide +kernel)
  have hphase : m.phase = .executeTasks [1] .finishedTaskInfos true := by
    have h : overtakenRun.map (fun m => m.phase) = some (.executeTasks [1] .finishedTaskInfos true) := by
      decide +kernel
    simpa [hm] using h
  have hfin : m.engine.finishedTaskInfos = [0] := by
    have h : overtakenRun.map (fun m => m.engine.finishedTaskInfos) = some [0] := by decide +kernel
    simpa [hm] using h
  have hrule : (m.engine.taskInfos 0).map (fun ti => ti.forRuleInfo) = some [1] := by
    have h : overtakenRun.map (fun m => (m.engine.taskInfos 0).map (fun ti => ti.forRuleInfo)) =
        some (some [1]) := by decide +kernel
    simpa [hm] using h
  have hasked : (m.engine.askedBy 0).map (fun r => r.dependency) = [{ keyID := [2] }, { keyID := [3] }] := by
    have h : overtakenRun.map (fun m => (m.engine.askedBy 0).map (fun r => r.dependency)) =
        some [{ keyID := [2] }, { keyID := [3] }] := by decide +kernel
    rw [hm] at h
    exact some.inj h
  have hdeps : (m.engine.ruleInfos [1]).result.dependencies = [{ keyID := [3] }, { keyID := [2] }] := by
    have h : overtakenRun.map (fun m => (m.engine.ruleInfos [1]).result.dependencies) =
        some [{ keyID := [3] }, { keyID := [2] }] := by decide +kernel
    rw [hm] at h
    exact some.inj h
  refine ⟨m, ⟨_, reachable_run _ _ m (fun _ _ _ => trivial) .refl hm⟩, hphase, hfin, hrule, hasked,
    hdeps, ?_⟩
  rintro ⟨ti, hti, heq⟩
  have hk : ti.forRuleInfo = [1] := by simpa [hti] using hrule
  rw [hk, hdeps, hasked] at heq
  exact absurd heq (by decide)

end Builra
